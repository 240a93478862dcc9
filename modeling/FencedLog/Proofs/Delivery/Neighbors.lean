/-
# What a record owes to its neighbors

A round that one broker serves by itself is decided by that broker: a batch is
acknowledged exactly if all of its records are small enough and the broker
admits its partition, and no append changes what the broker admits
(`Broker.akin_append`). So of the other records of a round only those matter
that are too large for the batch, and those for partitions that cannot be
enrolled (`Delivery.acked_attend`); without them it only matters whether the
identity may write to the partition (`Delivery.acked_of_unspoiled`).

Key definitions: `Acked`, `Broker.Admits`, `Broker.Akin`, `Broker.Entitles`,
`Broker.Provides`, `Delivery.roundAlone`, `Delivery.Carried`, `Delivery.Unspoiled`.
Key theorems: `Broker.akin_append`, `Broker.append_admits`,
`Broker.enroll_admits`, `Delivery.acked_appendNext`, `Delivery.acked_attend`,
`Delivery.acked_of_unspoiled`.
-/
import FencedLog.Proofs.Broker.Last
import FencedLog.Proofs.Broker.Single
import FencedLog.Proofs.Delivery.Halt

namespace FencedLog

/-! ### Acknowledgments -/

/-- The ticket is acknowledged on this partition. -/
def Acked (p : TopicPartition) (t : Ticket) (deeds : List Deed) : Prop :=
  ∃ m, (t, m) ∈ acks deeds ∧ m.spot.1 = p

section Acked

variable {p q : TopicPartition} {t : Ticket} {xs ys : List Deed}

theorem acked_append : Acked p t (xs ++ ys) ↔ Acked p t xs ∨ Acked p t ys := by
  simp only [Acked, acks_append, List.mem_append, or_and_right, exists_or]

theorem not_acked_of_nil (h : acks xs = []) : ¬ Acked p t xs := by
  simp [Acked, h]

theorem acked_placeAll : ∀ (loads : List Load) (base : Nat),
    Acked p t (placeAll q base loads) ↔ q = p ∧ t ∈ loads.map (·.2)
  | [], base => by simp [Acked, placeAll, acks]
  | (record, t') :: loads, base => by
    have hrest := acked_placeAll loads (base + 1)
    unfold Acked at hrest ⊢
    rw [acks_placeAll] at hrest ⊢
    simp only [placements, List.mem_cons, List.map_cons, or_and_right, exists_or, hrest,
      Prod.mk.injEq]
    constructor
    · rintro (⟨m, ⟨rfl, rfl⟩, hm⟩ | ⟨rfl, ht⟩)
      · exact ⟨hm, Or.inl rfl⟩
      · exact ⟨rfl, Or.inr ht⟩
    · rintro ⟨rfl, rfl | ht⟩
      · exact Or.inl ⟨_, ⟨rfl, rfl⟩, rfl⟩
      · exact Or.inr ⟨rfl, ht⟩

end Acked

/-- All records are small enough. -/
def Batch.Fits (batch : Batch Load) (max : Nat) : Prop := ∀ r ∈ batch.records, r.size ≤ max

namespace Broker

/-! ### What a broker admits -/

/-- The broker lets this identity append to `p`. -/
structure Admits (b : Broker) (x : String) (id : Identity) (p : TopicPartition) : Prop where
  available : b.available = true
  enrolled : ∃ t, b.coordinator.describe x = some t ∧ id = t.identity ∧ t.stage = .ongoing ∧
    p ∈ t.partitions
  there : ∃ log, b.log? p = some log

/-- The brokers admit the same. -/
structure Akin (b b' : Broker) : Prop where
  config : b'.config = b.config
  available : b'.available = b.available
  entries : ∀ x, b'.coordinator.describe x = b.coordinator.describe x
  logs : ∀ p, (∃ log, b'.log? p = some log) ↔ ∃ log, b.log? p = some log

variable {b b' : Broker} {now : Span} {x : String} {id : Identity} {p : TopicPartition}

theorem Akin.admits (h : b.Akin b') : b'.Admits x id p ↔ b.Admits x id p := by
  constructor
  · rintro ⟨ha, he, hl⟩
    exact ⟨h.available ▸ ha, h.entries x ▸ he, (h.logs p).mp hl⟩
  · rintro ⟨ha, he, hl⟩
    exact ⟨h.available.trans ha, (h.entries x).symm ▸ he, (h.logs p).mpr hl⟩

/-- An append does not change what the broker admits. -/
theorem akin_append (b : Broker) (now : Span) (x : String) (id : Identity) (p : TopicPartition)
    (records : List Record) : b.Akin (b.handle now (.append x id p records)).1 := by
  by_cases ha : b.available = true
  · refine ⟨config_act b (.request now _), ?_, fun y => ?_, fun q => ?_⟩
    · simp only [handle, ha, ↓reduceIte]
      exact (append_available ..).trans ha
    · have hc := b.act_coordinator (.request now (.append x id p records))
      rw [show (b.handle now (.append x id p records)).1.coordinator = _ from hc]
      simp only [order?, ha, ↓reduceIte, orderOf]
      split
      · rfl
      · exact (Coordinator.permit_spec b.coordinator x id p).1.describe y
    · simp only [handle, ha, ↓reduceIte]
      rcases append_spec b x id p records with ⟨_, log, -, -, -, -, hl, -, hq⟩ | ⟨e, -, ht⟩
      · rw [hq]
        by_cases hpq : p = q
        · subst hpq
          simp [hl]
        · rw [if_neg hpq]
      · rw [log?_eq_of_topics ht]
  · rw [handle_of_not_available (by simpa using ha)]
    exact ⟨rfl, rfl, fun _ => rfl, fun _ => Iff.rfl⟩

/-- A batch is appended exactly if the broker admits its partition and all of
its records are small enough. -/
theorem append_admits (b : Broker) (now : Span) (x : String) (id : Identity) (batch : Batch Load) :
    (∃ base, (b.handle now (.append x id batch.partition batch.records)).2 = .ok (.appended base)) ↔
      b.Admits x id batch.partition ∧ batch.Fits b.config.maxRecordBytes := by
  constructor
  · rintro ⟨base, h⟩
    obtain ⟨t, log, hd, hid, ho, hp, hl, -, -⟩ := append_ok h
    have ha := available_of_ok h
    refine ⟨⟨ha, ⟨t, hd, hid, ho, hp⟩, log, hl⟩, fun r hr => ?_⟩
    simp only [handle, ha, ↓reduceIte, append] at h
    split at h
    · cases h
    · rename_i hsmall
      simpa using List.find?_eq_none.mp hsmall r hr
  · rintro ⟨⟨ha, henrolled, log, hl⟩, hfits⟩
    have hsmall : batch.records.find? (fun r => b.config.maxRecordBytes < r.size) = none := by
      rw [List.find?_eq_none]
      intro r hr
      simpa using hfits r hr
    have hok := (Coordinator.permit_spec b.coordinator x id batch.partition).2.1.mpr henrolled
    refine ⟨log.next, ?_⟩
    rw [handle, if_pos ha]
    simp only [append, hsmall]
    generalize b.coordinator.permit x id batch.partition = r at hok
    obtain ⟨c, _⟩ := r
    subst hok
    have hsame : ({ b with coordinator := c } : Broker).log? batch.partition = some log :=
      (log?_eq_of_topics rfl _).trans hl
    simp only [hsame]

/-- The identity may write to `p`, which it has enrolled or is about to enroll. -/
structure Entitles (b : Broker) (x : String) (id : Identity) (enrolled : List TopicPartition)
    (p : TopicPartition) : Prop where
  available : b.available = true
  entry : ∃ t, b.coordinator.describe x = some t ∧ id = t.identity ∧
    (p ∈ enrolled → t.stage = .ongoing ∧ p ∈ t.partitions)

/-- Of what is enrolled, only the partition itself matters. -/
theorem Entitles.of_imp {enrolled ps : List TopicPartition} (h : b.Entitles x id enrolled p)
    (hp : p ∈ ps → p ∈ enrolled) : b.Entitles x id ps p :=
  let ⟨t, hd, hid, hm⟩ := h.entry
  ⟨h.available, t, hd, hid, fun hin => hm (hp hin)⟩

/-- Once these partitions exist, or their topics are made, `p` has a log. -/
def Provides (b : Broker) (fresh : List TopicPartition) (p : TopicPartition) : Prop :=
  (b.ensureAll fresh).2 = .ok () ∧ ∃ log, (b.ensureAll fresh).1.log? p = some log

theorem admits_iff {enrolled : List TopicPartition} (hp : p ∈ enrolled) :
    b.Admits x id p ↔ b.Provides [] p ∧ b.Entitles x id enrolled p := by
  constructor
  · rintro ⟨ha, ⟨t, hd, hid, ho, hm⟩, hl⟩
    exact ⟨⟨rfl, hl⟩, ha, t, hd, hid, fun _ => ⟨ho, hm⟩⟩
  · rintro ⟨⟨-, hl⟩, ha, t, hd, hid, hm⟩
    obtain ⟨ho, hm⟩ := hm hp
    exact ⟨ha, ⟨t, hd, hid, ho, hm⟩, hl⟩

/-- An enrollment is granted to the current identity if all partitions exist or
can be made. Then the broker admits what is enrolled, and no more of the rest
than before. -/
theorem enroll_admits (hs : b.coordinator.Sound) (now : Span) (x : String) (id : Identity)
    {enrolled fresh : List TopicPartition} (hp : p ∈ fresh ↔ p ∉ enrolled) :
    ((b.handle now (.enroll x id fresh)).2 = .ok .enrolled ∧
      (b.handle now (.enroll x id fresh)).1.config = b.config ∧
      ((b.handle now (.enroll x id fresh)).1.Admits x id p ↔
        b.Provides fresh p ∧ b.Entitles x id enrolled p)) ∨
    ((∃ e, (b.handle now (.enroll x id fresh)).2 = .error e) ∧
      ¬ (b.Provides fresh p ∧ b.Entitles x id enrolled p)) := by
  have hg := grown_ensureAll fresh b
  rcases fits_enroll (fits_handle b now (.enroll x id fresh)) with hok | ⟨e, he⟩
  · left
    obtain ⟨t, hd, rfl, hd'⟩ := enroll_ok hs hok
    have ha := available_of_ok hok
    refine ⟨hok, config_act b (.request now _), ?_⟩
    rw [act] at hd'
    rw [handle, if_pos ha] at hok hd' ⊢
    rcases enroll_spec b now x t.identity fresh with ⟨e, -, henroll⟩ | ⟨hmade, henroll⟩
    · rw [henroll] at hok
      cases hok
    · rw [henroll] at hd' ⊢
      simp only at hd' ⊢
      have hlog : ∀ c : Coordinator, ({ (b.ensureAll fresh).1 with coordinator := c } : Broker).log? p =
          (b.ensureAll fresh).1.log? p := fun _ => log?_eq_of_topics rfl p
      constructor
      · rintro ⟨-, ⟨u, hu, -, ho, hm⟩, hl⟩
        rw [hlog] at hl
        refine ⟨⟨hmade, hl⟩, ha, t, hd, rfl, fun hin => ?_⟩
        obtain rfl := Option.some.inj (hd'.symm.trans hu)
        rw [Transaction.mem_enroll_partitions] at hm
        exact hm.resolve_left fun hf => hp.mp hf hin
      · rintro ⟨⟨-, hl⟩, -, u, hu, -, hm⟩
        obtain rfl := Option.some.inj (hd.symm.trans hu)
        refine ⟨hg.available.trans ha, ⟨_, hd', (t.enroll_identity now fresh).symm,
          t.enroll_stage now fresh, ?_⟩, by rw [hlog]; exact hl⟩
        rw [Transaction.mem_enroll_partitions]
        by_cases hin : p ∈ enrolled
        · exact Or.inr (hm hin)
        · exact Or.inl (hp.mpr hin)
  · right
    refine ⟨⟨e, he⟩, ?_⟩
    rintro ⟨⟨hmade, -⟩, ha, t, hd, rfl, -⟩
    rw [handle, if_pos ha] at he
    rcases enroll_spec b now x t.identity fresh with ⟨e', hb, -⟩ | ⟨-, henroll⟩
    · rw [hmade] at hb
      cases hb
    · rcases Coordinator.enroll_spec b.coordinator now x t.identity fresh with
        ⟨-, -, -, hok, -⟩ | ⟨e', ha', -⟩
      · rw [henroll, hok] at he
        cases he
      · rw [Coordinator.authorize_eq_ok_iff.mpr ⟨hd, rfl⟩] at ha'
        cases ha'

/-! ### Topics on demand -/

/-- The partition exists, or its topic is made on demand. -/
def Offers (b : Broker) (p : TopicPartition) : Prop :=
  ∃ log, (b.ensureTopic p.topic).log? p = some log

/-- A topic is made on demand if it is missing, and may be made. -/
theorem get?_ensureTopic (b : Broker) (topic name : String) :
    (b.ensureTopic topic).topics.get? name =
      if topic = name ∧ b.config.autoCreateTopics = true ∧ b.topics.get? name = none then
        some (List.replicate (max b.config.defaultPartitions 1) Log.empty)
      else b.topics.get? name := by
  unfold ensureTopic Table.contains
  by_cases ht : topic = name
  · subst ht
    by_cases ha : b.config.autoCreateTopics = true
    · cases hg : b.topics.get? topic <;> simp [ha, hg]
    · simp [ha]
  · simp only [ht, false_and, ↓reduceIte]
    split
    · exact Table.get?_put_of_ne _ ht _
    · rfl

theorem config_ensureTopic (b : Broker) (topic : String) :
    (b.ensureTopic topic).config = b.config :=
  (grown_ensureTopic b topic).config

/-- To make one topic on demand does not matter to what is offered. -/
theorem offers_ensureTopic (b : Broker) (topic : String) (p : TopicPartition) :
    (b.ensureTopic topic).Offers p ↔ b.Offers p := by
  have hget : ((b.ensureTopic topic).ensureTopic p.topic).topics.get? p.topic =
      (b.ensureTopic p.topic).topics.get? p.topic := by
    simp only [get?_ensureTopic, config_ensureTopic]
    by_cases ht : topic = p.topic
    · by_cases ha : b.config.autoCreateTopics = true
      · cases b.topics.get? p.topic <;> simp [ht, ha]
      · simp [ha]
    · simp [ht]
  unfold Offers log?
  rw [hget]

/-- All partitions can be enrolled exactly if each of them is offered. -/
theorem ensureAll_ok_iff : ∀ {ps : List TopicPartition} {b : Broker},
    (b.ensureAll ps).2 = .ok () ↔ ∀ p ∈ ps, b.Offers p
  | [], b => by simp [ensureAll]
  | p :: ps, b => by
    rw [List.forall_mem_cons]
    unfold ensureAll
    cases hl : (b.ensureTopic p.topic).log? p with
    | none => simp [Offers, hl]
    | some log =>
      simp only [hl]
      rw [ensureAll_ok_iff, and_iff_right ⟨log, hl⟩]
      simp only [offers_ensureTopic]

/-- What is enrolled has a log. -/
theorem log?_ensureAll : ∀ {ps : List TopicPartition} {b : Broker},
    (b.ensureAll ps).2 = .ok () → p ∈ ps → ∃ log, (b.ensureAll ps).1.log? p = some log
  | q :: ps, b, h, hp => by
    unfold ensureAll at h ⊢
    cases hl : (b.ensureTopic q.topic).log? q with
    | none => simp [hl] at h
    | some log =>
      simp only [hl] at h ⊢
      rcases List.mem_cons.mp hp with rfl | hp
      · exact ⟨log, (grown_ensureAll ps _).kept p log hl⟩
      · exact log?_ensureAll h hp

end Broker

/-! ### A broker by itself -/

namespace Delivery

variable {d : Delivery} {b : Broker} {x : String} {id : Identity} {p : TopicPartition} {t : Ticket}

/-- The batches that a round makes of them. -/
def parcels (d : Delivery) (visible : Nat) : Batches Load :=
  (Batches.empty d.worker.maxBatch).pushAll (routed (d.taken visible))

/-- The partitions that a round has to enroll first. -/
def fresh (d : Delivery) (visible : Nat) : List TopicPartition :=
  (d.parcels visible).partitions.filter (!d.worker.enrolled.contains ·)

/-- What a worker does whose requests one broker handles, one after the other,
at these clock readings. -/
def alone (b : Broker) (d : Delivery) : List Span → List Deed
  | [] => []
  | now :: times =>
    match d.worker.request? with
    | none => []
    | some q =>
      let r := d.answered (b.handle now q).2
      r.2 ++ alone (b.handle now q).1 r.1 times

theorem alone_of_silent (h : d.worker.request? = none) (times : List Span) :
    alone b d times = [] := by
  cases times with
  | nil => rfl
  | cons now times => simp [alone, h]

theorem alone_cons {q : Request} (h : d.worker.request? = some q) (now : Span) (times : List Span) :
    alone b d (now :: times) = (d.answered (b.handle now q).2).2 ++
      alone (b.handle now q).1 (d.answered (b.handle now q).2).1 times := by
  simp [alone, h]

/-- A batch of the ticket for `p` has only records of at most `max` bytes. -/
def Carried (batches : List (Batch Load)) (max : Nat) (p : TopicPartition) (t : Ticket) : Prop :=
  ∃ batch ∈ batches, batch.partition = p ∧ t ∈ batch.tickets ∧ batch.Fits max

theorem carried_cons {batch : Batch Load} {rest : List (Batch Load)} {max : Nat} :
    Carried (batch :: rest) max p t ↔
      (batch.partition = p ∧ t ∈ batch.tickets ∧ batch.Fits max) ∨ Carried rest max p t := by
  simp [Carried]

/-- A batch is appended, and the worker goes on. -/
theorem answered_appended {batch : Batch Load} {rest : List (Batch Load)}
    {barrier : Option Barrier} (hp : d.worker.phase = .appending batch rest barrier) (base : Nat) :
    d.answered (.ok (.appended base)) =
      let r := appendNext { d with shared := d.shared.countAcknowledged batch.items.length } barrier rest
      (r.1, placeAll batch.partition base batch.items ++ r.2) := by
  unfold answered
  rw [hp]

/-- A batch is refused, and the worker goes on. -/
theorem answered_refused {batch : Batch Load} {rest : List (Batch Load)}
    {barrier : Option Barrier} (hp : d.worker.phase = .appending batch rest barrier)
    (e : BrokerError) :
    d.answered (.error e) =
      let d' := (d.refused e).1
      let r := appendNext { d' with shared := d'.shared.countFailed batch.items.length } barrier rest
      (r.1, failAll (d.refused e).2 batch.tickets ++ r.2) := by
  unfold answered
  rw [hp]

/-- Only who is not current is fenced. -/
theorem fatal_refused_of_admits {now : Span} {q : TopicPartition} {records : List Record}
    {e : BrokerError} (hn : d.shared.fatal = none) (h : b.Admits x id p)
    (he : (b.handle now (.append x id q records)).2 = .error e) :
    (d.refused e).1.shared.fatal = none := by
  obtain ⟨-, ⟨u, hd, rfl, -⟩, -⟩ := h
  have hnot := Broker.not_isFencing_of_current (q := .append x u.identity q records) hd ⟨rfl, rfl⟩ he
  obtain ⟨-, -, hfatal⟩ := refused_spec d e
  rw [hnot] at hfatal
  by_contra hlatched
  rcases hfatal.mp hlatched with h | h
  · exact h hn
  · cases h

/-- **Each batch is decided by itself**: its records are acknowledged if the
broker admits the partition and they are small enough, whatever became of the
batches before. -/
theorem acked_appendNext (barrier : Option Barrier) : ∀ (batches : List (Batch Load)) {d : Delivery}
    {b : Broker} {times : List Span}, d.worker.txid = x → d.worker.identity = id →
      (d.shared.fatal ≠ none → ¬ b.Admits x id p) → batches.length ≤ times.length →
        (Acked p t ((d.appendNext barrier batches).2 ++
            alone b (d.appendNext barrier batches).1 times) ↔
          Carried batches b.config.maxRecordBytes p t ∧ b.Admits x id p)
  | [], d, b, times, _, _, _, _ => by
    rw [appendNext, alone_of_silent (by rw [reach_worker, Worker.request?_reached])]
    simp [Acked, acks, Carried]
  | batch :: rest, d, b, times, hx, hid, hf, hlen => by
    rw [appendNext]
    split
    · -- nothing is admitted after a terminal error, and nothing is asked
      rename_i e he
      have hno : ¬ b.Admits x id p := hf (by simp [he])
      have hrest := acked_appendNext barrier rest (b := b)
        (d := { d with shared := d.shared.countFailed batch.items.length }) hx hid hf
        (Nat.le_of_succ_le hlen)
      simp only [hno, and_false, iff_false] at hrest ⊢
      rw [List.append_assoc, acked_append, not_or]
      exact ⟨not_acked_of_nil (acks_failAll ..), hrest⟩
    · rename_i hn
      obtain ⟨now, times, rfl⟩ :=
        List.exists_cons_of_length_pos (Nat.lt_of_lt_of_le (Nat.succ_pos _) hlen)
      have hlen' : rest.length ≤ times.length := Nat.le_of_succ_le_succ hlen
      let d₁ := d.setPhase (.appending batch rest barrier)
      have hq : d₁.worker.request? = some (.append x id batch.partition batch.records) := by
        rw [← hx, ← hid]
        rfl
      have hakin := b.akin_append now x id batch.partition batch.records
      have hopen := b.append_admits now x id batch
      rw [acked_append, or_iff_right (not_acked_of_nil rfl), alone_cons hq, carried_cons]
      rcases fits_append (fits_handle b now (.append x id batch.partition batch.records)) with
        ⟨base, hok⟩ | ⟨e, herr⟩
      · obtain ⟨hopened, hfits⟩ := hopen.mp ⟨base, hok⟩
        have hrest := acked_appendNext barrier rest
          (b := (b.handle now (.append x id batch.partition batch.records)).1)
          (d := { d₁ with shared := d₁.shared.countAcknowledged batch.items.length }) hx hid
          (fun h => absurd hn h) hlen'
        rw [hakin.config, hakin.admits] at hrest
        rw [hok, answered_appended rfl, List.append_assoc, acked_append, acked_placeAll, hrest]
        constructor
        · rintro (⟨rfl, ht⟩ | ⟨h, hp⟩)
          · exact ⟨Or.inl ⟨rfl, ht, hfits⟩, hopened⟩
          · exact ⟨Or.inr h, hp⟩
        · rintro ⟨⟨rfl, ht, -⟩ | h, hp⟩
          · exact Or.inl ⟨rfl, ht⟩
          · exact Or.inr ⟨h, hp⟩
      · have hno : ¬ (b.Admits x id batch.partition ∧ batch.Fits b.config.maxRecordBytes) :=
          fun h => by
            obtain ⟨base, hok⟩ := hopen.mpr h
            rw [herr] at hok
            cases hok
        have hw := (refused_spec d₁ e).1
        have hrest := acked_appendNext barrier rest
          (b := (b.handle now (.append x id batch.partition batch.records)).1)
          (d := { (d₁.refused e).1 with
            shared := (d₁.refused e).1.shared.countFailed batch.items.length })
          ((congrArg Worker.txid hw).trans hx) ((congrArg Worker.identity hw).trans hid)
          (fun h hadm => h (fatal_refused_of_admits hn (hakin.admits.mp hadm) herr)) hlen'
        rw [hakin.config, hakin.admits] at hrest
        rw [herr, answered_refused rfl, List.append_assoc, acked_append,
          or_iff_right (not_acked_of_nil (acks_failAll ..)), hrest]
        constructor
        · rintro ⟨h, hp⟩
          exact ⟨Or.inr h, hp⟩
        · rintro ⟨⟨rfl, -, hfits⟩ | h, hp⟩
          · exact absurd ⟨hp, hfits⟩ hno
          · exact ⟨h, hp⟩

/-- **A round is decided by its broker**: a record is acknowledged if its own
batch is small enough, its partition is there, every partition that is to be
enrolled can be, and its identity may write to it. -/
theorem acked_dispatch (hs : b.coordinator.Sound) (hf : d.shared.fatal = none)
    (barrier : Option Barrier) (s : Batches Load) {times : List Span}
    (hlen : s.batches.length < times.length) :
    Acked p t ((d.dispatch barrier s).2 ++ alone b (d.dispatch barrier s).1 times) ↔
      Carried s.batches b.config.maxRecordBytes p t ∧
        b.Provides (s.partitions.filter (!d.worker.enrolled.contains ·)) p ∧
          b.Entitles d.worker.txid d.worker.identity d.worker.enrolled p := by
  have hpart : ∀ {max}, Carried s.batches max p t → p ∈ s.partitions := by
    rintro max ⟨batch, hb, rfl, -⟩
    exact Batches.mem_partitions hb
  unfold dispatch
  split
  · rename_i he
    rw [List.isEmpty_iff.mp he, alone_of_silent (by rw [reach_worker, Worker.request?_reached])]
    simp [Acked, acks, Carried]
  · split
    · rename_i hnone
      rw [hnone, acked_appendNext barrier s.batches rfl rfl (fun h => absurd hf h)
        (Nat.le_of_lt hlen)]
      refine and_congr_right fun hc => Broker.admits_iff ?_
      simpa using List.filter_eq_nil_iff.mp hnone p (hpart hc)
    · obtain ⟨now, times, rfl⟩ := List.exists_cons_of_length_pos (Nat.zero_lt_of_lt hlen)
      have hlen' : s.batches.length ≤ times.length := Nat.le_of_lt_succ hlen
      generalize hfresh : s.partitions.filter (!d.worker.enrolled.contains ·) = fresh
      let d₁ : Delivery := { d with shared := { d.shared with started := true } }
      let d₂ := d₁.setPhase (.enrolling fresh s.batches barrier)
      have hq : d₂.worker.request? = some (.enroll d.worker.txid d.worker.identity fresh) := rfl
      have hdecided := fun hc : Carried s.batches b.config.maxRecordBytes p t =>
        b.enroll_admits hs now d.worker.txid d.worker.identity
          (show p ∈ fresh ↔ p ∉ d.worker.enrolled by simp [← hfresh, hpart hc])
      rw [acked_append, or_iff_right (not_acked_of_nil rfl), alone_cons hq]
      rcases fits_enroll (fits_handle b now (.enroll d.worker.txid d.worker.identity fresh)) with
        hok | ⟨e, he⟩
      · have hgranted := acked_appendNext (t := t) (p := p) barrier s.batches
          (b := (b.handle now (.enroll d.worker.txid d.worker.identity fresh)).1)
          (d := { d₂ with worker := { d₂.worker with enrolled := d₂.worker.enrolled ++ fresh } })
          rfl rfl (fun h => absurd hf h) hlen'
        rw [show (b.handle now (.enroll d.worker.txid d.worker.identity fresh)).1.config = b.config
          from Broker.config_act b (.request now _)] at hgranted
        rw [hok]
        refine hgranted.trans (and_congr_right fun hc => ?_)
        rcases hdecided hc with ⟨-, -, h⟩ | ⟨⟨e, he⟩, -⟩
        · exact h
        · rw [hok] at he
          cases he
      · rw [he, alone_of_silent (by rw [(enroll_refused rfl e).1, Worker.request?_reached]),
          List.append_nil]
        refine iff_of_false (not_acked_of_nil (acks_failAll ..)) ?_
        rintro ⟨hc, h⟩
        rcases hdecided hc with ⟨hok, -⟩ | ⟨-, hno⟩
        · rw [hok] at he
          cases he
        · exact hno h

/-- What a worker does that takes a round, and whose requests one broker handles. -/
def roundAlone (b : Broker) (d : Delivery) (visible : Nat) (times : List Span) : List Deed :=
  (d.round visible).2 ++ alone b (d.round visible).1 times

/-- **Which records of a round are acknowledged.** -/
theorem acked_attend (hs : b.coordinator.Sound) (hi : d.worker.phase = .idle)
    (hf : d.shared.fatal = none) (visible : Nat) {times : List Span}
    (hlen : (d.parcels visible).batches.length < times.length) :
    Acked p t (roundAlone b d visible times) ↔
      Carried (d.parcels visible).batches b.config.maxRecordBytes p t ∧
        b.Provides (d.fresh visible) p ∧
          b.Entitles d.worker.txid d.worker.identity d.worker.enrolled p := by
  obtain ⟨barrier, rest, -, -, hround⟩ := round_taken hi visible
  rw [roundAlone, hround]
  unfold parcels at hlen ⊢
  unfold fresh parcels
  generalize d.taken visible = pending at hlen ⊢
  let d₁ : Delivery := { d with worker := { d.worker with queue := rest } }
  simp only
  split
  · rename_i he
    rw [List.isEmpty_iff.mp he, alone_of_silent (by rw [reach_worker, Worker.request?_reached])]
    simp [Acked, acks, Carried, routed, Batches.pushAll, Batches.empty]
  · unfold deliver
    split
    · rename_i e he
      replace he : d.shared.fatal = some e := he
      rw [hf] at he
      cases he
    · simp only
      rw [List.append_assoc, acked_append, or_iff_right (not_acked_of_nil (acks_misrouted pending))]
      exact acked_dispatch hs
        (d := { d₁ with shared := d.shared.countFailed (misrouted pending).length }) hf barrier
        ((Batches.empty d.worker.maxBatch).pushAll (routed pending)) hlen

/-! ### Good neighbors -/

/-- Nothing in the round keeps a record of this ticket from `p`: no record of its
batch is too large, all partitions to be enrolled exist or are made on demand,
and `p` is still there if it was enrolled. -/
structure Unspoiled (b : Broker) (d : Delivery) (visible : Nat) (p : TopicPartition) (t : Ticket) :
    Prop where
  fits : Carried (d.parcels visible).batches b.config.maxRecordBytes p t
  offered : ∀ q ∈ d.fresh visible, b.Offers q
  there : p ∈ d.worker.enrolled → ∃ log, b.log? p = some log

/-- **Among good neighbors a record is acknowledged if its identity may write to
its partition**, whatever else the round holds. -/
theorem acked_of_unspoiled (hs : b.coordinator.Sound) (hi : d.worker.phase = .idle)
    (hf : d.shared.fatal = none) {visible : Nat} {times : List Span}
    (hlen : (d.parcels visible).batches.length < times.length) (h : Unspoiled b d visible p t) :
    Acked p t (roundAlone b d visible times) ↔
      b.Entitles d.worker.txid d.worker.identity d.worker.enrolled p := by
  rw [acked_attend hs hi hf visible hlen, and_iff_right h.fits, and_iff_right]
  refine ⟨Broker.ensureAll_ok_iff.mpr h.offered, ?_⟩
  by_cases hp : p ∈ d.worker.enrolled
  · obtain ⟨log, hl⟩ := h.there hp
    exact ⟨log, (Broker.grown_ensureAll _ b).kept p log hl⟩
  · obtain ⟨batch, hb, rfl, -⟩ := h.fits
    refine Broker.log?_ensureAll (Broker.ensureAll_ok_iff.mpr h.offered) ?_
    simp [fresh, Batches.mem_partitions hb, hp]

end Delivery
end FencedLog
