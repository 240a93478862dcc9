/-
# Nobody sees how the records were grouped

A transaction in calm weather gets on, and ends as if its records had been
appended one at a time (`Origin.produce`): its commit succeeds, the logs of its
topics are the same, and each send is told the same place. Neither how many
records a batch may hold nor how the worker's rounds cut its queue is left in it,
so any two such transactions of the same sends agree (`History.unseen`).

Key definitions: `History.Outset`, `History.origin`, `History.Commits`,
`Origin.produce`, `Origin.Like`.
Key theorems: `Outset.sails`, `Outset.mayReturn`, `Commits.concludes`,
`History.unseen`.
-/
import FencedLog.Proofs.Scene.Ascending
import FencedLog.Proofs.Scene.Onward

namespace FencedLog

variable {o o' : Origin} {ours : String → Prop} {sends : List Sent} {acked : List Receipt}
  {w : Worker} {h h' : History} {a : Act} {id : Identity}

/-! ### One at a time -/

/-- The records of some sends are appended one at a time and committed; answers
what each send is told. -/
def Origin.produce (o : Origin) (now : Span) (sends : List Sent) :
    Broker × List (Ticket × Placement) :=
  let (b, told) := o.broker.produce now o.txid o.identity (o.loads sends)
  (b.act (.request now (.finish o.txid o.identity .commit)), told)

/-- One at a time, the logs end up the same and each send is told the same. -/
theorem Origin.produce_settles (hb : o.Carries ours o.held [] o.broker)
    (ht : ∀ f ∈ o.loads sends, o.broker.Takes ours f) (now : Span) :
    o.Settled ours sends (o.produce now sends).1 ∧
      (o.produce now sends).2.map Prod.fst = sends.map (·.ticket) ∧
      ∀ p, (o.produce now sends).2.filter (·.2.spot.1 = p) =
        placements p (o.broker.next p) (lane p (o.loads sends)) := by
  obtain ⟨hcarries, htickets, hplaces⟩ := Broker.Carries.produce now (o.loads sends) hb ht
  exact ⟨(hcarries.finish (fun p _ hl => Or.inr hl) now).1,
    htickets.trans (tickets_manifest o.count sends o.rotation), hplaces⟩

/-! ### Every history -/

/-- What holds of a session beside a broker whatever has happened. -/
structure History.Basic (h : History) : Prop where
  coupled : h.scene.Coupled
  agrees : h.scene.Agrees h.book
  sound : h.scene.chronicle.broker.coordinator.Sound
  listed : h.scene.chronicle.broker.coordinator.Listed

theorem History.basic_run {broker : BrokerConfig} {config : SessionConfig} (as : List Act) :
    ((start broker config).run as).Basic := by
  have keeps : ∀ (as : List Act) {h : History}, h.Basic → (h.run as).Basic := by
    intro as
    induction as with
    | nil => exact id
    | cons a as ih =>
      intro h hb
      refine ih ⟨(hb.coupled.act a).2, Scene.agrees_act hb.agrees a, ?_, ?_⟩
      · rcases Scene.chronicle_moves h.scene a with hc | ⟨op, hc, -⟩
        · exact (congrArg (·.broker.coordinator.Sound) hc).mpr hb.sound
        · exact (congrArg (·.broker.coordinator.Sound) hc).mpr (Broker.sound_act hb.sound op)
      · rcases Scene.chronicle_moves h.scene a with hc | ⟨op, hc, -⟩
        · exact (congrArg (·.broker.coordinator.Listed) hc).mpr hb.listed
        · exact (congrArg (·.broker.coordinator.Listed) hc).mpr (Broker.listed_act hb.sound hb.listed)
  refine keeps as ⟨Scene.coupled_start broker config, ⟨rfl, List.Subset.refl _⟩, ?_, ?_⟩
  · exact Coordinator.sound_start _
  · exact Coordinator.listed_start _

/-! ### The outset -/

/-- A session with this identity that is about to begin a transaction: it has
valid settings, a worker and no terminal error, and the broker knows its
identity, for which no transaction is open unless the session has inherited it. -/
structure History.Outset (h : History) (id : Identity) : Prop where
  valid : h.scene.session.config.validate = .ok ()
  lifecycle : h.scene.session.lifecycle = .ready
  wait : h.scene.session.wait = .nothing
  manned : h.scene.session.isWorkerGone = false
  fatal : h.scene.session.shared.fatal = none
  identity : h.scene.session.identity = some id
  available : h.scene.chronicle.broker.available = true
  entry : ∃ t, h.scene.chronicle.broker.coordinator.describe h.scene.session.config.txid = some t ∧
    t.identity = id
  free : h.scene.session.inherited = false →
    ∀ p, ¬ h.scene.chronicle.broker.held h.scene.session.config.txid p

def History.origin (h : History) (id : Identity) : Origin where
  broker := h.scene.chronicle.broker
  txid := h.scene.session.config.txid
  identity := id
  count := h.scene.session.reckon h.scene.chronicle.broker
  rotation := h.scene.session.rotation
  inherited := h.scene.session.inherited
  accepted := h.book.accepted
  completed := h.book.completed

theorem SessionConfig.queueCapacity_pos {c : SessionConfig} (hv : c.validate = .ok ()) :
    0 < c.queueCapacity := by
  have hf := SessionConfig.validate_ok_iff.mp hv
  unfold fault? at hf
  split_ifs at hf
  omega

namespace History

theorem Outset.carries (ho : h.Outset id) (hb : h.Basic) :
    (h.origin id).Carries ours (h.origin id).held [] h.scene.chronicle.broker := by
  obtain ⟨t, hd, rfl⟩ := ho.entry
  exact Broker.Carries.start ho.available hb.sound hb.listed hd

/-- The transaction begins. -/
theorem Outset.sails (ho : h.Outset id) (hb : h.Basic) :
    ∃ w, Sails (h.origin id) ours [] [] w (h.act (.call .begin)) := by
  obtain ⟨w, hw, hp, hq⟩ : ∃ w, h.scene.session.worker = some w ∧ w.phase = .idle ∧ w.queue = [] := by
    have hm := ho.manned
    unfold Session.isWorkerGone at hm
    cases hw : h.scene.session.worker with
    | none => simp [hw] at hm
    | some w =>
      obtain ⟨hp | hp, hq⟩ := hb.coupled.rests ho.lifecycle ho.wait hw
      · exact ⟨w, rfl, hp, hq hp⟩
      · simp [hw, Delivery.isStopped, hp] at hm
  let s₁ : Session := { h.scene.session with
    shared := { h.scene.session.shared with started := false } }
  let w' := Stance.queue w (.barrier .newTransaction)
  obtain ⟨-, hpush⟩ | ⟨hfull, -⟩ := Session.push_of_alive (s := s₁) hw (by simp [hp])
    (.barrier .newTransaction) .begun
  · have hstep : h.scene.session.step (.called .begin) =
        ({ s₁ with lifecycle := .inTransaction, wait := .nothing, worker := some w' },
          [.returned (.ok .done)]) := by
      have hbegin : h.scene.session.begin = s₁.push (.barrier .newTransaction) .begun := by
        unfold Session.begin
        split
        · rename_i he
          simp [ho.fatal] at he
        · rfl
      rw [Session.step, ho.wait]
      exact (if_pos ho.lifecycle).trans (hbegin.trans hpush)
    have hcall : (h.book.called h.scene.session (.called .begin)).call =
        some ⟨.begin, h.scene.session.lifecycle, none⟩ := by
      rw [Daybook.called, ho.wait]
    have hh := (primed_call .begin hb.coupled ho.wait).returned hstep
    have hbook := hh.book.trans (Daybook.returned_ok hcall (by simp) .done)
    rw [Daybook.called_eq] at hbook
    have hnone : ∀ p, ¬ w'.Concerns p := fun p hc => hc.elim (not_registered_queue_begin w p)
      (by simp [w', Stance.queue, hp, Phase.fresh])
    have hlanded : ∀ line, w'.landed line = [] := landed_of_phase (by simp [w', Stance.queue, hp])
    have hcargo : w'.cargo = [] := by
      simp [w', Worker.cargo, Stance.queue, hp, hq, Phase.loads, pendings, routed]
    have hwork := (hh.work.trans (Scene.work_idle hb.coupled hw (by rw [Worker.request?, hp])))
    exact ⟨w', {
      coupled := (hb.coupled.act _).2
      agrees := Scene.agrees_act hb.agrees (.call .begin)
      steers := hh.session ▸ ⟨rfl, ho.identity, ho.fatal, fun _ _ => rfl⟩
      worker := hh.session ▸ rfl
      hauls := by
        rw [hh.session, hwork]
        exact {
          alive := by simp [w', Stance.queue, hp]
          bound := by simp [w', Stance.queue, hq, pendings, misrouted]
          answers := by simp
          lanes := fun p => by
            rw [hcargo]
            rfl
          places := fun _ => rfl
          landed := fun p => by
            rw [hlanded]
            rfl
          known := fun _ hk => absurd rfl hk
          awaited := fun p hc => absurd hc (hnone p)
          started := iff_of_false (by simp) fun h => h.elim hnone }
      voyage := by
        rw [hh.session, hwork, hh.own, hbook, hh.chronicle, hlanded]
        refine .underway rfl rfl (.nothing rfl rfl fun r hc => by simp at hc) ?_
        refine (ho.carries hb).congr (fun p => ?_) fun _ => rfl
        exact or_iff_right fun hc => hnone p (hc.imp_right And.left)
      takes := fun f hf => absurd hf List.not_mem_nil
      accepted := hbook ▸ (List.append_nil _).symm
      completed := hbook ▸ (List.append_nil _).symm }⟩
  · have := SessionConfig.queueCapacity_pos ho.valid
    rw [hq] at hfull
    exact absurd this (Nat.not_lt_of_le hfull)

end History

/-! ### The end -/

/-- A commit has returned: the sends are settled and were told their places. It
has succeeded, unless nothing was sent in a transaction that was inherited. -/
structure Origin.Concludes (o : Origin) (ours : String → Prop) (sends : List Sent)
    (r : Except SessionError Report) (h : History) : Prop where
  result : r = .ok .done ∨ (sends = [] ∧ o.inherited = true)
  settled : o.Settled ours sends h.scene.chronicle.broker
  takes : ∀ f ∈ o.loads sends, o.broker.Takes ours f
  tells : o.Tells sends h.book.completed

/-- When a commit has returned the transaction has ended, or there was nothing
to commit. -/
theorem Sails.concludes {r : Except SessionError Report} (hs : Sails o ours sends acked w h)
    (hcall : h.book.call = some ⟨.finish .commit, .inTransaction, some r⟩) :
    o.Concludes ours sends r h := by
  have returned : h.scene.session.wait = .nothing := by
    by_contra hw
    obtain ⟨op, lc, hrunning, -⟩ := hs.running hw
    simp [hrunning] at hcall
  cases hs.voyage with
  | underway hl hi hw hb =>
    cases hw with
    | nothing _ hr hc =>
      obtain ⟨rfl, hinherited, hfree⟩ := hc r hcall
      have hnone : ∀ p, lane p (acked.map Receipt.freight) = [] ∧ lane p w.cargo = [] := fun p =>
        List.append_eq_nil_iff.mp (hs.hauls.lanes p).symm
      have hlanded : w.landed h.scene.work = [] := List.eq_nil_iff_forall_not_mem.mpr fun x hx =>
        hs.hauls.awaited _ (Or.inl (hs.registered_landed x hx)) rfl
      have hmarks : ∀ p, ¬ o.Marks [] p := fun p hm => hm.elim (hfree p) (· rfl)
      refine ⟨Or.inr ⟨rfl, hinherited⟩, ?_, hs.takes, hs.tells (eq_nil_of_lanes fun p => (hnone p).2)⟩
      rw [hlanded, List.append_nil] at hb
      exact (Broker.Carries.settled hb hmarks fun p _ => (hnone p).1).congr (fun _ => Iff.rfl)
        fun p => (hnone p).1.symm
    | routing _ hw => simp [hw] at returned
    | crowded _ _ hw => simp [hw] at returned
    | flushing _ _ hw => rcases hw with hw | hw <;> simp [hw] at returned
  | asked _ _ _ hw => simp [hw] at returned
  | granted _ hw => simp [hw] at returned
  | refused _ _ _ hw => simp [hw] at returned

namespace History

/-- A transaction begins, and goes on so. -/
def transact (h : History) (as : List Act) : History := (h.act (.call .begin)).run as

theorem transact_eq (h : History) (as : List Act) : h.transact as = h.run (.call .begin :: as) :=
  rfl

/-- In calm weather a transaction begins, and after `as` a commit has returned
`r`; in between `sends` were accepted. -/
structure Commits (h : History) (ours : String → Prop) (id : Identity) (as : List Act)
    (sends : List Sent) (r : Except SessionError Report) : Prop where
  outset : h.Outset id
  calm : (h.act (.call .begin)).scene.Admits (Scene.Calm ours) as
  sent : (h.transact as).book.accepted = h.book.accepted ++ sends
  returned : (h.transact as).book.call = some ⟨.finish .commit, .inTransaction, some r⟩

theorem Commits.concludes {as : List Act} {r : Except SessionError Report}
    (hc : h.Commits ours id as sends r) (hb : h.Basic) :
    (h.origin id).Concludes ours sends r (h.transact as) := by
  obtain ⟨w, hs⟩ : ∃ w, Sails (h.origin id) ours [] [] w _ := hc.outset.sails hb
  rcases Sails.run hc.outset.free (Or.inl ⟨[], [], w, hs⟩) hc.calm with
    ⟨sends', acked, w', hs'⟩ | ⟨sends', hd⟩
  · obtain rfl : sends' = sends := List.append_cancel_left (hs'.accepted.symm.trans hc.sent)
    exact hs'.concludes hc.returned
  · obtain rfl : sends' = sends := List.append_cancel_left (hd.accepted.symm.trans hc.sent)
    have hr := hc.returned.symm.trans hd.call
    simp only [Option.some.injEq, Call.mk.injEq, true_and] at hr
    exact ⟨Or.inl hr, hd.settled, hd.takes, hd.tells⟩

/-- In calm weather no call gets stuck. -/
theorem Outset.mayReturn (ho : h.Outset id) (hb : h.Basic) {as : List Act}
    (hcalm : (h.act (.call .begin)).scene.Admits (Scene.Calm ours) as) :
    (h.transact as).MayReturn := by
  obtain ⟨w, hs⟩ : ∃ w, Sails (h.origin id) ours [] [] w _ := ho.sails hb
  rcases Sails.run ho.free (Or.inl ⟨[], [], w, hs⟩) hcalm with ⟨_, _, _, hs'⟩ | ⟨_, hd⟩
  · refine hs'.mayReturn ho.free ?_
    have hconfig : (h.transact as).scene.session.config = h.scene.session.config :=
      config_run (.call .begin :: as) h
    exact hconfig ▸ SessionConfig.queueCapacity_pos ho.valid
  · exact fun hw => absurd hd.wait hw

/-- After a transaction the logs of our topics are those of a broker, and the
sends that it has completed were acknowledged with these places. -/
structure Shows (h : History) (ours : String → Prop) (as : List Act)
    (seen : Broker × List (Ticket × Placement)) : Prop where
  logs : ∀ p, ours p.topic → (h.transact as).scene.chronicle.broker.log? p = seen.1.log? p
  told : ∃ told : List (Ticket × Placement), (h.transact as).book.completed =
    h.book.completed ++ told.map (fun x => (x.1, .ok x.2)) ∧ told.Perm seen.2

end History

/-- Two transactions start alike for our topics. -/
structure Origin.Like (o o' : Origin) (ours : String → Prop) : Prop where
  producer : o'.identity.producer = o.identity.producer
  count : ∀ topic, ours topic → o'.count topic = o.count topic
  rotation : o'.rotation = o.rotation
  logs : ∀ p, ours p.topic → o'.broker.log? p = o.broker.log? p
  held : ∀ p, ours p.topic → (o'.held p ↔ o.held p)

namespace Origin

variable {r r' : Except SessionError Report}

/-- Where the sends go is the same. -/
theorem Like.loads (hl : o.Like o' ours) (ht : ∀ f ∈ o.loads sends, o.broker.Takes ours f) :
    o'.loads sends = o.loads sends := by
  have htopics := topics_manifest o.count sends o.rotation
  refine congrArg Prod.fst (hl.rotation ▸ manifest_congr fun x hx => hl.count _ ?_)
  have hmem : x.draft.topic ∈ sends.map (·.draft.topic) := List.mem_map_of_mem hx
  obtain ⟨f, hf, he⟩ := List.mem_map.mp (htopics ▸ hmem)
  exact he ▸ (ht f hf).ours

/-- What was told of each partition is all that was told. -/
theorem Tells.perm {done : List (Ticket × Completion)} (h : o.Tells sends done)
    {told : List (Ticket × Placement)} (ht : ∀ p, told.filter (·.2.spot.1 = p) =
      placements p (o.broker.next p) (lane p (o.loads sends))) :
    ∃ told' : List (Ticket × Placement),
      done = o.completed ++ told'.map (fun x => (x.1, .ok x.2)) ∧ told'.Perm told := by
  obtain ⟨told', hdone, hplaces⟩ := h
  exact ⟨told', hdone, Broker.perm_of_partitions fun p => (hplaces p).trans (ht p).symm⟩

/-- So is where they come to lie. -/
theorem Like.placements (hl : o.Like o' ours) (ht : ∀ f ∈ o.loads sends, o.broker.Takes ours f)
    (p : TopicPartition) : FencedLog.placements p (o'.broker.next p) (lane p (o'.loads sends)) =
      FencedLog.placements p (o.broker.next p) (lane p (o.loads sends)) := by
  rw [hl.loads ht]
  by_cases hlane : lane p (o.loads sends) = []
  · rw [hlane]
    rfl
  · obtain ⟨l, hmem⟩ := List.exists_mem_of_ne_nil _ hlane
    have hp : ours p.topic := (ht _ (mem_lane.mp hmem)).ours
    rw [Broker.next, Broker.next, hl.logs p hp]

/-- Transactions that start alike and accept the same sends settle alike. -/
theorem Like.log_eq (hl : o.Like o' ours) (hc : o.Concludes ours sends r h)
    (hc' : o'.Concludes ours sends r' h') {p : TopicPartition} (hp : ours p.topic) :
    h'.scene.chronicle.broker.log? p = h.scene.chronicle.broker.log? p := by
  have hloads := hl.loads hc.takes
  have hsettled := hc'.settled
  rw [Settled, hloads] at hsettled
  exact hc.settled.log_eq hsettled hl.producer hp (or_congr (hl.held p hp) (by rw [hloads]))
    (hl.logs p hp)

end Origin

namespace History

/-- **Batching and scheduling are invisible, and order is kept.** Whatever
happens, the sends of a session to a partition that are acknowledged have
ascending offsets, as long as the topic is not deleted. And in calm weather no
call of a transaction gets stuck, and a commit leaves the logs, and tells the
sends, what it would if their records had been appended one at a time; so two
sessions that start alike and make the same sends leave and tell the same,
whatever their settings and the rounds of their workers. -/
theorem unseen {broker : BrokerConfig} {config : SessionConfig} (bs : List Act) :
    (∀ topic, .others (.deleteTopic topic) ∉ bs →
      (((start broker config).run bs).book.accepted.map (·.ticket)).Nodup →
      ((start broker config).run bs).Ordered topic) ∧
    (∀ {ours : String → Prop} {id : Identity} {as : List Act},
      ((start broker config).run bs).Outset id →
      (((start broker config).run bs).act (.call .begin)).scene.Admits (Scene.Calm ours) as →
      (((start broker config).run bs).transact as).MayReturn) ∧
    ∀ {ours : String → Prop} {id : Identity} {as : List Act} {sends : List Sent}
      {r : Except SessionError Report}, ((start broker config).run bs).Commits ours id as sends r →
      (r = .ok .done ∨
        (sends = [] ∧ ((start broker config).run bs).scene.session.inherited = true)) ∧
      (∀ now, ((start broker config).run bs).Shows ours as
          ((((start broker config).run bs).origin id).produce now sends) ∧
        ((((start broker config).run bs).origin id).produce now sends).2.map Prod.fst =
          sends.map (·.ticket)) ∧
      ∀ {broker' : BrokerConfig} {config' : SessionConfig} {bs' : List Act} {id' : Identity}
        {as' : List Act} {r' : Except SessionError Report},
        ((start broker' config').run bs').Commits ours id' as' sends r' →
        (((start broker config).run bs).origin id).Like
          (((start broker' config').run bs').origin id') ours →
        ∃ seen, ((start broker config).run bs).Shows ours as seen ∧
          ((start broker' config').run bs').Shows ours as' seen := by
  have hbasic : ((start broker config).run bs).Basic := basic_run bs
  refine ⟨fun topic hd hn => ((ascends_start broker config).run hd).ordered hn,
    fun ho hcalm => ho.mayReturn hbasic hcalm, ?_⟩
  intro ours id as sends r hc
  have hdone := hc.concludes hbasic
  refine ⟨hdone.result, fun now => ?_, ?_⟩
  · obtain ⟨hsettled, htickets, hplaces⟩ :=
      Origin.produce_settles (hc.outset.carries hbasic) hdone.takes now
    exact ⟨⟨fun p hp => hsettled.log_eq hdone.settled rfl hp Iff.rfl rfl,
      hdone.tells.perm hplaces⟩, htickets⟩
  · intro broker' config' bs' id' as' r' hc' hl
    have hdone' := hc'.concludes (basic_run bs')
    obtain ⟨told, htold, hplaces⟩ := hdone.tells
    exact ⟨(_, told), ⟨fun _ _ => rfl, told, htold, .refl _⟩, fun p hp => hl.log_eq hdone hdone' hp,
      hdone'.tells.perm fun p => (hplaces p).trans (hl.placements hdone.takes p).symm⟩

/-! ### A batch for each record, and one for all -/

/-- A topic is created and the session is initialized. -/
def readies : List Act := [
  .others (.createTopic "T" 2), .call .init, .reach .own .zero none, .hear .own]

/-- A session whose batches hold at most `n` records is ready. -/
def moored (n : Nat) : History := (start .default { Scene.settings with maxBatch := n }).run readies

/-- Two records to one partition, and between them one to another. -/
def three : List Sent := [⟨Scene.draftFor 0, ⟨0, .future⟩, 0⟩,
  ⟨Scene.draftFor 1, ⟨1, .callback⟩, 0⟩, ⟨Scene.draftFor 0, ⟨2, .future⟩, 0⟩]

/-- The worker delivers each record before the next one is sent. -/
def eager : List Act := [
  .round 1,
  .call (.send (Scene.draftFor 0) ⟨0, .future⟩ 0), .reach .own .zero none, .hear .own,
  .round 1, .reach .work .zero none, .hear .work, .reach .work .zero none, .hear .work,
  .call (.send (Scene.draftFor 1) ⟨1, .callback⟩ 0),
  .round 1, .reach .work .zero none, .hear .work, .reach .work .zero none, .hear .work,
  .call (.send (Scene.draftFor 0) ⟨2, .future⟩ 0),
  .round 1, .reach .work .zero none, .hear .work,
  .call (.finish .commit), .round 1, .wake, .reach .own .zero none, .hear .own]

/-- The worker delivers nothing until the commit flushes. -/
def lazy : List Act := [
  .call (.send (Scene.draftFor 0) ⟨0, .future⟩ 0), .reach .own .zero none, .hear .own,
  .call (.send (Scene.draftFor 1) ⟨1, .callback⟩ 0),
  .call (.send (Scene.draftFor 0) ⟨2, .future⟩ 0),
  .call (.finish .commit), .round 1, .round 9,
  .reach .work .zero none, .hear .work, .reach .work .zero none, .hear .work,
  .reach .work .zero none, .hear .work, .wake, .reach .own .zero none, .hear .own]

theorem outset_moored {n : Nat} (hn : n ∈ [1, 100]) : (moored n).Outset ⟨1000, 0⟩ := by
  have hv : (moored n).scene.session.config.validate = .ok () := by
    revert n
    decide +kernel
  have hentry : ((moored n).scene.chronicle.broker.coordinator.describe "tx").map
      (fun t => (t.identity, t.stage)) = some (⟨1000, 0⟩, .empty) := by
    revert n
    decide +kernel
  obtain ⟨t, hd, ht⟩ := Option.map_eq_some_iff.mp hentry
  obtain ⟨hid, hempty⟩ := Prod.mk.inj ht
  refine ⟨hv, rfl, rfl, rfl, rfl, rfl, rfl, ⟨t, hd, hid⟩, fun _ p ⟨t', hd', hs, _⟩ => ?_⟩
  obtain rfl := Option.some.inj (hd.symm.trans hd')
  simp [hempty] at hs

theorem like_moored (n m : Nat) :
    ((moored n).origin ⟨1000, 0⟩).Like ((moored m).origin ⟨1000, 0⟩) (· = "T") :=
  ⟨rfl, fun _ _ => rfl, rfl, fun _ _ => rfl, fun _ _ => Iff.rfl⟩

theorem commits_eager : (moored 1).Commits (· = "T") ⟨1000, 0⟩ eager three (.ok .done) := by
  refine ⟨outset_moored (by decide), ?_, by decide +kernel, by decide +kernel⟩
  simp only [eager, Scene.Admits]
  refine ⟨trivial, And.intro (by decide +kernel) (by decide +kernel), rfl, trivial, trivial, rfl,
    trivial, rfl, trivial, And.intro (by decide +kernel) (by decide +kernel), trivial, rfl, trivial,
    rfl, trivial, And.intro (by decide +kernel) (by decide +kernel), trivial, rfl, trivial, ?_,
    trivial, trivial, rfl, trivial, trivial⟩
  show Session.lifecycle _ = _
  decide +kernel

theorem commits_lazy : (moored 100).Commits (· = "T") ⟨1000, 0⟩ lazy three (.ok .done) := by
  refine ⟨outset_moored (by decide), ?_, by decide +kernel, by decide +kernel⟩
  simp only [lazy, Scene.Admits]
  refine ⟨And.intro (by decide +kernel) (by decide +kernel), rfl, trivial,
    And.intro (by decide +kernel) (by decide +kernel),
    And.intro (by decide +kernel) (by decide +kernel), ?_, trivial, trivial, rfl, trivial, rfl,
    trivial, rfl, trivial, trivial, rfl, trivial, trivial⟩
  show Session.lifecycle _ = _
  decide +kernel

theorem unseen_eagerLazy :
    ((moored 1).transact eager).Ordered "T" ∧
    (moored 1).Commits (· = "T") ⟨1000, 0⟩ eager three (.ok .done) ∧
    (moored 100).Commits (· = "T") ⟨1000, 0⟩ lazy three (.ok .done) ∧
    ((moored 100).transact (lazy.take 6)).scene.session.wait ≠ .nothing ∧
    ((moored 100).transact (lazy.take 6)).MayReturn ∧
    (∃ seen, (moored 1).Shows (· = "T") eager seen ∧ (moored 100).Shows (· = "T") lazy seen) ∧
    ((moored 1).transact eager).book.completed = [
      (⟨0, .future⟩, .ok ⟨"T", 0, 0, 1⟩), (⟨1, .callback⟩, .ok ⟨"T", 1, 0, 1⟩),
      (⟨2, .future⟩, .ok ⟨"T", 0, 1, 1⟩)] ∧
    ((moored 100).transact lazy).book.completed = [
      (⟨0, .future⟩, .ok ⟨"T", 0, 0, 1⟩), (⟨2, .future⟩, .ok ⟨"T", 0, 1, 1⟩),
      (⟨1, .callback⟩, .ok ⟨"T", 1, 0, 1⟩)] := by
  have hordered : ((moored 1).transact eager).Ordered "T" := by
    rw [transact_eq, moored, ← run_append]
    exact (unseen _).1 "T" (by simp [readies, eager]) (by decide +kernel)
  have hcalm : ((moored 100).act (.call .begin)).scene.Admits (Scene.Calm (· = "T"))
      (lazy.take 6 ++ lazy.drop 6) := commits_lazy.calm
  have hwait : ((moored 100).transact (lazy.take 6)).scene.session.wait.depth = 2 := by
    decide +kernel
  have hreturn := (unseen readies).2.1 commits_lazy.outset hcalm.split.1
  obtain ⟨-, -, halike⟩ := (unseen readies).2.2 commits_eager
  exact ⟨hordered, commits_eager, commits_lazy, fun hn => by simp [hn, Wait.depth] at hwait,
    hreturn, halike commits_lazy (like_moored 1 100), by decide +kernel, by decide +kernel⟩

end History
end FencedLog
