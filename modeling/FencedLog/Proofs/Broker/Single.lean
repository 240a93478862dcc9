/-
# A transaction that nothing interferes with

A producer that appends its records one at a time (`Broker.produce`) is the
measure of every other way to append them. Whichever way it is, as long as
nobody else touches the topics and the entry of the transactional id, the
broker refuses nothing, and each log has got its lane of what was appended
(`Broker.Carries`); after the commit each log has got its lane and, if there was
one, a marker (`Broker.Settled`). A log shows neither how its lane was cut nor
what was appended elsewhere in between.

Key definitions: `Broker.breadth`, `Broker.Carries`, `Broker.Settled`,
`Broker.produce`.
Key theorems: `Broker.Carries.enroll`, `Broker.Carries.append`,
`Broker.Carries.finish`, `Broker.Carries.produce`.
-/
import FencedLog.Proofs.Broker.Committed
import FencedLog.Proofs.Delivery.Lanes
import FencedLog.Proofs.Scene.Truthful

namespace FencedLog

/-- A request of the current identity to end what is not under way changes
nothing. -/
theorem Coordinator.finish_idle {c : Coordinator} {x : String} {t : Transaction}
    (hd : c.describe x = some t) (hs : t.stage ≠ .ongoing) (o : Outcome) :
    c.finish x t.identity o = (c, .ok none) ∨
      ∃ reason, c.finish x t.identity o = (c, .error (.invalidState reason)) := by
  unfold finish
  simp only [hd, Int.lt_irrefl, and_false, ↓reduceIte, Transaction.validate_ok_iff.mpr]
  cases hst : t.stage with
  | ongoing => exact absurd hst hs
  | empty => exact Or.inl rfl
  | completed became =>
    simp only
    split
    · exact Or.inl rfl
    · exact Or.inr ⟨_, rfl⟩

namespace Broker

variable {b b' b₀ : Broker} {x : String} {id : Identity} {now : Span} {p : TopicPartition}
  {topic : String}

/-! ### Existing partitions -/

/-- How many partitions a topic has. -/
def breadth (b : Broker) (topic : String) : Nat := (b.topics.get? topic).elim 0 List.length

/-- The offset of the next record of a partition. -/
def next (b : Broker) (p : TopicPartition) : Nat := (b.log? p).elim 0 Log.next

theorem exists_log_iff :
    (∃ log, b.log? p = some log) ↔ 0 ≤ p.partition ∧ p.partition.toNat < b.breadth p.topic := by
  unfold log? breadth
  by_cases hp : p.partition < 0
  · simp only [hp, ↓reduceIte, reduceCtorEq, exists_false, false_iff]
    omega
  · rw [if_neg hp]
    cases b.topics.get? p.topic with
    | none => simp
    | some logs =>
      simp only [Option.bind_some, Option.elim, List.getElem?_eq_some_iff]
      constructor
      · rintro ⟨log, hlt, -⟩
        exact ⟨by omega, hlt⟩
      · exact fun h => ⟨_, h.2, rfl⟩

/-- A topic has as many partitions as it has logs. -/
theorem breadth_eq (h : ∀ p : TopicPartition, p.topic = topic →
    ((∃ log, b'.log? p = some log) ↔ ∃ log, b.log? p = some log)) :
    b'.breadth topic = b.breadth topic := by
  have hlt : ∀ n : Nat, n < b'.breadth topic ↔ n < b.breadth topic := fun n => by
    simpa [exists_log_iff] using h ⟨topic, n⟩ rfl
  exact Nat.le_antisymm (Nat.le_of_not_lt fun hn => (Nat.lt_irrefl _) ((hlt _).mp hn))
    (Nat.le_of_not_lt fun hn => (Nat.lt_irrefl _) ((hlt _).mpr hn))

theorem ensureTopic_of_breadth (h : 0 < b.breadth topic) : b.ensureTopic topic = b := by
  unfold breadth at h
  unfold ensureTopic Table.contains
  cases hl : b.topics.get? topic with
  | none => simp [hl] at h
  | some logs => simp

theorem ensureAll_of_logs : ∀ {ps : List TopicPartition},
    (∀ p ∈ ps, ∃ log, b.log? p = some log) → b.ensureAll ps = (b, .ok ())
  | [], _ => rfl
  | p :: ps, h => by
    obtain ⟨log, hl⟩ := h p List.mem_cons_self
    have hb := Nat.zero_lt_of_lt (exists_log_iff.mp ⟨log, hl⟩).2
    unfold ensureAll
    simp only [ensureTopic_of_breadth hb, hl]
    exact ensureAll_of_logs fun q hq => h q (List.mem_cons_of_mem _ hq)

/-- A topic that exists is listed with all its partitions, and nothing happens
to it. -/
theorem handle_listing (ha : b.available = true) (h : 0 < b.breadth topic) (now : Span) :
    ∃ infos, b.handle now (.listing topic) = (b, .ok (.partitions infos)) ∧
      infos.length = b.breadth topic := by
  have hensure := ensureTopic_of_breadth h
  unfold breadth at h ⊢
  cases hl : b.topics.get? topic with
  | none => simp [hl] at h
  | some logs =>
    refine ⟨numbered topic (some leader) logs.length, ?_, by simp [numbered]⟩
    simp only [handle, ha, ↓reduceIte, listing, hensure, hl]

/-- No operation changes the settings. -/
theorem config_act (b : Broker) (op : Op) : (b.act op).config = b.config := by
  cases op with
  | request now q =>
    by_cases ha : b.available = true
    · simp only [act, handle, ha, ↓reduceIte]
      cases q with
      | init x timeout =>
        simp only [init]
        split
        · exact (same_close _ _).config
        · rfl
      | enroll x id ps =>
        rcases enroll_spec b now x id ps with ⟨e, -, he⟩ | ⟨-, he⟩ <;> simp only [he] <;>
          exact (grown_ensureAll ps b).config
      | append x id p records => exact append_config ..
      | finish x id o =>
        simp only [finish]
        split
        · rfl
        · rfl
        · exact (same_close _ _).config
      | listing topic =>
        simp only [listing]
        split <;> exact (grown_ensureTopic b topic).config
    · simp only [act, handle, ha, Bool.false_eq_true, ↓reduceIte]
  | expire now =>
    simp only [act, expire]
    exact (same_closeAll _ _).config
  | appendPlain p records =>
    simp only [act, appendPlain]
    split
    · exact (same_putLog b p _).config
    · rfl
  | createTopic topic count =>
    simp only [act, createTopic]
    split
    · rfl
    · split <;> rfl
  | deleteTopic topic =>
    simp only [act, deleteTopic]
    split <;> rfl
  | setAvailable available => rfl
  | restart => rfl

theorem append_available (b : Broker) (x : String) (id : Identity) (p : TopicPartition)
    (records : List Record) : (b.append x id p records).1.available = b.available := by
  unfold append
  split
  · rfl
  · split
    · rfl
    · simp only
      split
      · exact (same_putLog _ _ _).available
      · rfl

theorem listed_act {op : Op} (hs : b.coordinator.Sound) (h : b.coordinator.Listed) :
    (b.act op).coordinator.Listed := by
  rw [act_coordinator]
  cases b.order? op with
  | none => exact h
  | some o => exact Coordinator.listed_act hs h o

/-! ### The transaction -/

/-- The loads as items of a log. -/
def itemsOf (id : Identity) (loads : List Load) : List Log.Item :=
  loads.map fun l => .record (some id.producer) l.1

theorem itemsOf_append (id : Identity) (xs ys : List Load) :
    itemsOf id (xs ++ ys) = itemsOf id xs ++ itemsOf id ys := List.map_append

/-- The partitions that are enrolled in the transaction of a transactional id,
while one is open. -/
def held (b : Broker) (x : String) (p : TopicPartition) : Prop :=
  ∃ t, b.coordinator.describe x = some t ∧ t.stage = .ongoing ∧ p ∈ t.partitions

/-- Since `b₀` the loads were appended, the claimed partitions are enrolled, and
nothing else has happened to our topics. -/
structure Carries (b₀ : Broker) (ours : String → Prop) (x : String) (id : Identity)
    (claimed : TopicPartition → Prop) (loads : List Freight) (b : Broker) : Prop where
  available : b.available = true
  config : b.config = b₀.config
  sound : b.coordinator.Sound
  listed : b.coordinator.Listed
  entry : ∃ t, b.coordinator.describe x = some t ∧ t.identity = id ∧
    ∀ p, claimed p ↔ t.stage = .ongoing ∧ p ∈ t.partitions
  logs : ∀ p, ours p.topic → b.log? p = (b₀.log? p).map (·.extend (itemsOf id (lane p loads)))

/-- Since `b₀` the loads were appended and the marked partitions committed, and
nothing else has happened to our topics. -/
def Settled (b₀ : Broker) (ours : String → Prop) (id : Identity) (marked : TopicPartition → Prop)
    (loads : List Freight) (b : Broker) : Prop :=
  ∀ p, ours p.topic →
    (marked p → b.log? p = (b₀.log? p).map fun log =>
      (log.extend (itemsOf id (lane p loads))).mark id.producer .commit) ∧
    (¬ marked p → b.log? p = b₀.log? p)

/-- A load that the broker can take: its partition exists, and its record is
not too large. -/
structure Takes (b₀ : Broker) (ours : String → Prop) (x : Freight) : Prop where
  ours : ours x.1.topic
  there : ∃ log, b₀.log? x.1 = some log
  fits : x.2.1.size ≤ b₀.config.maxRecordBytes

variable {ours : String → Prop} {claimed : TopicPartition → Prop} {loads : List Freight}

/-- What somebody else does leaves our topics and this entry alone, and the
broker available. -/
structure Aside (b : Broker) (ours : String → Prop) (x : String) (op : Op) : Prop where
  available : (b.act op).available = true
  entry : (b.act op).coordinator.describe x = b.coordinator.describe x
  logs : ∀ p, ours p.topic → (b.act op).log? p = b.log? p

namespace Settled

variable {marked : TopicPartition → Prop}

theorem congr (h : b₀.Settled ours id marked loads b) {marked' : TopicPartition → Prop}
    {loads' : List Freight} (hm : ∀ p, marked' p ↔ marked p)
    (hl : ∀ p, lane p loads' = lane p loads) : b₀.Settled ours id marked' loads' b :=
  fun p hp => ⟨fun h' => (hl p).symm ▸ (h p hp).1 ((hm p).mp h'),
    fun h' => (h p hp).2 (mt (hm p).mpr h')⟩

theorem aside (h : b₀.Settled ours id marked loads b) {op : Op} (ho : b.Aside ours x op) :
    b₀.Settled ours id marked loads (b.act op) := fun p hp => by
  rw [ho.logs p hp]
  exact h p hp

/-- What is settled in the same way is the same. -/
theorem log_eq (h : b₀.Settled ours id marked loads b) {b₁ : Broker} {id₁ : Identity}
    {marked₁ : TopicPartition → Prop} (h₁ : b₁.Settled ours id₁ marked₁ loads b')
    (hid : id₁.producer = id.producer) (hp : ours p.topic) (hm : marked₁ p ↔ marked p)
    (hl : b₁.log? p = b₀.log? p) : b'.log? p = b.log? p := by
  by_cases hmark : marked p
  · rw [(h p hp).1 hmark, (h₁ p hp).1 (hm.mpr hmark), hl, hid]
    simp only [itemsOf, hid]
  · rw [(h p hp).2 hmark, (h₁ p hp).2 (mt hm.mp hmark), hl]

end Settled

namespace Carries

theorem start (ha : b₀.available = true) (hs : b₀.coordinator.Sound) (hl : b₀.coordinator.Listed)
    {t : Transaction} (hd : b₀.coordinator.describe x = some t) :
    b₀.Carries ours x t.identity (b₀.held x) [] b₀ where
  available := ha
  config := rfl
  sound := hs
  listed := hl
  entry := ⟨t, hd, rfl, fun _ =>
    ⟨fun ⟨u, hu, h⟩ => Option.some.inj (hd.symm.trans hu) ▸ h, fun h => ⟨t, hd, h⟩⟩⟩
  logs := fun p _ => by
    cases b₀.log? p with
    | none => rfl
    | some log => exact congrArg some (log.extend_nil).symm

/-- Only the lanes matter. -/
theorem congr (h : b₀.Carries ours x id claimed loads b) {claimed' : TopicPartition → Prop}
    {loads' : List Freight} (hc : ∀ p, claimed' p ↔ claimed p)
    (hl : ∀ p, lane p loads' = lane p loads) : b₀.Carries ours x id claimed' loads' b := by
  obtain ⟨t, hd, hid, hclaimed⟩ := h.entry
  exact ⟨h.available, h.config, h.sound, h.listed,
    ⟨t, hd, hid, fun p => (hc p).trans (hclaimed p)⟩, fun p hp => (hl p).symm ▸ h.logs p hp⟩

theorem log_iff (h : b₀.Carries ours x id claimed loads b) (hp : ours p.topic) :
    (∃ log, b.log? p = some log) ↔ ∃ log, b₀.log? p = some log := by
  rw [h.logs p hp]
  cases b₀.log? p <;> simp

theorem breadth (h : b₀.Carries ours x id claimed loads b) (ht : ours topic) :
    b.breadth topic = b₀.breadth topic :=
  breadth_eq fun _ hp => h.log_iff (hp ▸ ht)

theorem aside (h : b₀.Carries ours x id claimed loads b) {op : Op} (ho : b.Aside ours x op) :
    b₀.Carries ours x id claimed loads (b.act op) where
  available := ho.available
  config := (config_act ..).trans h.config
  sound := sound_act h.sound op
  listed := listed_act h.sound h.listed
  entry := by
    rw [ho.entry]
    exact h.entry
  logs := fun p hp => (ho.logs p hp).trans (h.logs p hp)

/-- The broker can take what it could take at first. -/
theorem takes (h : b₀.Carries ours x id claimed loads b) {f : Freight} (ht : b.Takes ours f) :
    b₀.Takes ours f :=
  ⟨ht.ours, (h.log_iff ht.ours).mp ht.there, h.config ▸ ht.fits⟩

/-- **Partitions of ours are enrolled.** -/
theorem enroll (h : b₀.Carries ours x id claimed loads b) {ps : List TopicPartition}
    (hps : ∀ p ∈ ps, ours p.topic ∧ ∃ log, b₀.log? p = some log) (now : Span) :
    (b.handle now (.enroll x id ps)).2 = .ok .enrolled ∧
      b₀.Carries ours x id (fun p => claimed p ∨ p ∈ ps) loads
        (b.act (.request now (.enroll x id ps))) := by
  obtain ⟨t, hd, hid, hclaimed⟩ := h.entry
  have hensure : b.ensureAll ps = (b, .ok ()) :=
    ensureAll_of_logs fun p hp => (h.log_iff (hps p hp).1).mpr (hps p hp).2
  rcases Coordinator.enroll_spec b.coordinator now x id ps with
    ⟨-, -, -, hok, -⟩ | ⟨e, he, -⟩
  · have hhandle : b.handle now (.enroll x id ps) =
        ({ b with coordinator := (b.coordinator.enroll now x id ps).1 }, .ok .enrolled) := by
      simp only [handle, h.available, ↓reduceIte, Broker.enroll, hensure, hok, Except.map]
    have hanswer : (b.handle now (.enroll x id ps)).2 = .ok .enrolled := by rw [hhandle]
    have hact : b.act (.request now (.enroll x id ps)) =
        { b with coordinator := (b.coordinator.enroll now x id ps).1 } := congrArg Prod.fst hhandle
    obtain ⟨u, hu, -, hd'⟩ := enroll_ok h.sound hanswer
    obtain rfl := Option.some.inj (hd.symm.trans hu)
    refine ⟨hanswer, ?_, (config_act ..).trans h.config, sound_act h.sound _,
      listed_act h.sound h.listed, ⟨_, hd', by simpa using hid, fun p => ?_⟩, fun p hp => ?_⟩
    · rw [hact]
      exact h.available
    · rw [Transaction.mem_enroll_partitions, hclaimed, or_comm]
      simp
    · rw [hact]
      exact (log?_eq_of_topics rfl p).trans (h.logs p hp)
  · rw [Coordinator.authorize_eq_ok_iff.mpr ⟨hd, hid.symm⟩] at he
    cases he

/-- **A batch for a claimed partition is appended**, after its lane. -/
theorem append (h : b₀.Carries ours x id claimed loads b) {batch : Batch Load}
    (hc : claimed batch.partition) (hp : ours batch.partition.topic)
    (hl : ∃ log, b₀.log? batch.partition = some log)
    (hfits : ∀ l ∈ batch.items, l.1.size ≤ b₀.config.maxRecordBytes) (now : Span) :
    (b.handle now (.append x id batch.partition batch.records)).2 =
        .ok (.appended (b₀.next batch.partition + (lane batch.partition loads).length)) ∧
      b₀.Carries ours x id claimed (loads ++ batch.loads)
        (b.act (.request now (.append x id batch.partition batch.records))) := by
  obtain ⟨t, hd, hid, hclaimed⟩ := h.entry
  obtain ⟨ho, hm⟩ := (hclaimed _).mp hc
  obtain ⟨log₀, hl⟩ := hl
  have hlog : b.log? batch.partition =
      some (log₀.extend (itemsOf id (lane batch.partition loads))) := by
    rw [h.logs _ hp, hl]
    rfl
  have hsmall : batch.records.find? (fun r => b.config.maxRecordBytes < r.size) = none := by
    rw [List.find?_eq_none]
    intro r hr
    obtain ⟨l, hl, rfl⟩ := List.mem_map.mp hr
    have := hfits l hl
    rw [h.config, decide_eq_true_eq]
    omega
  obtain ⟨hfenced, hpermit, -⟩ := Coordinator.permit_spec b.coordinator x id batch.partition
  have hok := hpermit.mpr ⟨t, hd, hid.symm, ho, hm⟩
  have hanswer : (b.append x id batch.partition batch.records).2 =
      .ok (.appended (b₀.next batch.partition + (lane batch.partition loads).length)) := by
    unfold Broker.append
    generalize b.coordinator.permit x id batch.partition = r at hok
    obtain ⟨c, _⟩ := r
    subst hok
    have hsame : ({ b with coordinator := c } : Broker).log? batch.partition = _ :=
      (log?_eq_of_topics rfl _).trans hlog
    simp only [hsmall, hsame, Broker.next, hl]
    simp [Log.extend, itemsOf]
  have hact : b.act (.request now (.append x id batch.partition batch.records)) =
      (b.append x id batch.partition batch.records).1 := by
    simp only [act, handle, h.available, ↓reduceIte]
  rcases append_spec b x id batch.partition batch.records with
    ⟨_, log, -, -, -, -, hlog', -, hq⟩ | ⟨e, he, -⟩
  · obtain rfl := Option.some.inj (hlog.symm.trans hlog')
    refine ⟨?_, ?_, (config_act ..).trans h.config, sound_act h.sound _,
      listed_act h.sound h.listed, ⟨t, ?_, hid, hclaimed⟩, fun q hp => ?_⟩
    · simp only [handle, h.available, ↓reduceIte, hanswer]
    · rw [hact]
      exact (append_available ..).trans h.available
    · rw [act_coordinator]
      simp only [order?, h.available, ↓reduceIte, orderOf, refusesSize_eq_false hsmall,
        Bool.false_eq_true, Option.elim, Coordinator.act]
      exact (hfenced.describe x).trans hd
    · rw [hact, hq, lane_append, itemsOf_append, lane_loads]
      by_cases hpp : batch.partition = q
      · subst hpp
        rw [if_pos rfl, if_pos rfl, hl, Option.map_some, Log.extend_append]
        simp [itemsOf, Batch.records, Function.comp_def]
      · rw [if_neg hpp, if_neg hpp, h.logs q hp]
        simp [itemsOf]
  · rw [hanswer] at he
    cases he

/-- The log of a partition without a lane is as it was. -/
theorem log_of_lane (h : b₀.Carries ours x id claimed loads b) (hp : ours p.topic)
    (hl : lane p loads = []) : b.log? p = b₀.log? p := by
  rw [h.logs p hp, hl]
  cases b₀.log? p with
  | none => rfl
  | some log => exact congrArg some log.extend_nil

/-- **The commit puts a marker after each lane.** It is refused only when nothing
is claimed, and then nothing happens. -/
theorem finish (h : b₀.Carries ours x id claimed loads b)
    (hc : ∀ p, ours p.topic → lane p loads ≠ [] → claimed p) (now : Span) :
    b₀.Settled ours id claimed loads (b.act (.request now (.finish x id .commit))) ∧
      ((b.handle now (.finish x id .commit)).2 = .ok .finished ∨
        (∀ p, ¬ claimed p) ∧ b.act (.request now (.finish x id .commit)) = b ∧
          ∃ reason, (b.handle now (.finish x id .commit)).2 = .error (.invalidState reason)) := by
  obtain ⟨t, hd, rfl, hclaimed⟩ := h.entry
  by_cases ho : t.stage = .ongoing
  · obtain ⟨hok, -, hlogs⟩ := finish_of_ongoing h.available h.listed hd ho now .commit
    have hmem : ∀ p, claimed p ↔ p ∈ t.partitions := fun p =>
      (hclaimed p).trans ⟨And.right, fun hm => ⟨ho, hm⟩⟩
    refine ⟨fun p hp => ⟨fun hm => ?_, fun hm => ?_⟩, Or.inl hok⟩
    · refine (hlogs p).trans ?_
      rw [h.logs p hp, Option.map_map]
      simp [Function.comp_def, (hmem p).mp hm]
    · have hlane : lane p loads = [] := by
        by_contra hl
        exact hm (hc p hp hl)
      refine (hlogs p).trans ?_
      rw [h.log_of_lane hp hlane]
      simp [mt (hmem p).mpr hm]
  · -- no partition is claimed, and so there is no lane
    have hnone : ∀ p, ¬ claimed p := fun p hp => ho ((hclaimed p).mp hp).1
    have hlane : ∀ p, ours p.topic → lane p loads = [] := fun p hp => by
      by_contra hl
      exact hnone p (hc p hp hl)
    have hsame : b.act (.request now (.finish x t.identity .commit)) = b ∧
        ((b.handle now (.finish x t.identity .commit)).2 = .ok .finished ∨
          ∃ reason, (b.handle now (.finish x t.identity .commit)).2 =
            .error (.invalidState reason)) := by
      simp only [act, handle, h.available, ↓reduceIte]
      unfold Broker.finish
      rcases Coordinator.finish_idle hd ho .commit with he | ⟨reason, he⟩ <;> rw [he]
      · exact ⟨rfl, Or.inl rfl⟩
      · exact ⟨rfl, Or.inr ⟨reason, rfl⟩⟩
    refine ⟨fun p hp => ⟨fun hm => absurd hm (hnone p), fun _ => ?_⟩,
      hsame.2.imp_right fun hr => ⟨hnone, hsame.1, hr⟩⟩
    rw [hsame.1]
    exact h.log_of_lane hp (hlane p hp)

/-- Where nothing was appended and nothing is to be marked, all is settled. -/
theorem settled (h : b₀.Carries ours x id claimed loads b) {marked : TopicPartition → Prop}
    (hm : ∀ p, ¬ marked p) (hl : ∀ p, ours p.topic → lane p loads = []) :
    b₀.Settled ours id marked loads b :=
  fun p hp => ⟨fun h => absurd h (hm p), fun _ => h.log_of_lane hp (hl p hp)⟩

end Carries

/-! ### One at a time -/

/-- Each load is appended by itself, once its partition is enrolled; answers
what each ticket is told. -/
def produce (b : Broker) (now : Span) (x : String) (id : Identity) :
    List Freight → Broker × List (Ticket × Placement)
  | [] => (b, [])
  | (p, record, ticket) :: rest =>
    let b := (b.handle now (.enroll x id [p])).1
    match b.handle now (.append x id p [record]) with
    | (b, .ok (.appended base)) =>
      let (b, told) := b.produce now x id rest
      (b, (ticket, ⟨p.topic, p.partition, base, record.time⟩) :: told)
    | (b, _) => b.produce now x id rest

theorem produce_cons {record : Record} {ticket : Ticket} {rest : List Freight} {base : Nat}
    (h : ((b.act (.request now (.enroll x id [p]))).handle now (.append x id p [record])).2 =
      .ok (.appended base)) :
    b.produce now x id ((p, record, ticket) :: rest) =
      let r := ((b.act (.request now (.enroll x id [p]))).act
        (.request now (.append x id p [record]))).produce now x id rest
      (r.1, (ticket, ⟨p.topic, p.partition, base, record.time⟩) :: r.2) := by
  simp only [produce, act] at h ⊢
  generalize (b.handle now (.enroll x id [p])).1.handle now (.append x id p [record]) = r at h ⊢
  obtain ⟨b', answer⟩ := r
  subst h
  rfl

theorem told_cons (p q : TopicPartition) (ticket : Ticket) (base : Nat) (time : Int)
    (told : List (Ticket × Placement)) :
    ((ticket, (⟨p.topic, p.partition, base, time⟩ : Placement)) :: told).filter
        (·.2.spot.1 = q) =
      if p = q then (ticket, ⟨p.topic, p.partition, base, time⟩) :: told.filter (·.2.spot.1 = q)
      else told.filter (·.2.spot.1 = q) := by
  by_cases h : p = q <;> simp [Placement.spot, h]

/-- **Loads that the broker can take are appended one at a time**, each at the
end of its lane. -/
theorem Carries.produce (now : Span) : ∀ (more : List Freight) {claimed : TopicPartition → Prop}
    {loads : List Freight} {b : Broker}, b₀.Carries ours x id claimed loads b →
      (∀ f ∈ more, b₀.Takes ours f) →
      b₀.Carries ours x id (fun p => claimed p ∨ lane p more ≠ []) (loads ++ more)
        (b.produce now x id more).1 ∧
      (b.produce now x id more).2.map Prod.fst = more.map (·.2.2) ∧
      ∀ p, (b.produce now x id more).2.filter (·.2.spot.1 = p) =
        placements p (b₀.next p + (lane p loads).length) (lane p more)
  | [], claimed, loads, b, h, _ => by
    refine ⟨?_, rfl, fun _ => rfl⟩
    simpa [Broker.produce] using h
  | (p, record, ticket) :: more, claimed, loads, b, h, ht => by
    obtain ⟨hours, hthere, hfits⟩ := ht _ List.mem_cons_self
    have hps : ∀ q ∈ [p], ours q.topic ∧ ∃ log, b₀.log? q = some log :=
      List.forall_mem_singleton.mpr ⟨hours, hthere⟩
    obtain ⟨-, henrolled⟩ := h.enroll hps now
    let batch : Batch Load := ⟨p, [(record, ticket)]⟩
    have hbatch : ∀ l ∈ batch.items, l.1.size ≤ b₀.config.maxRecordBytes :=
      List.forall_mem_singleton.mpr hfits
    obtain ⟨hanswer, happended⟩ :=
      henrolled.append (Or.inr List.mem_cons_self) hours hthere hbatch now
    obtain ⟨hcarries, htickets, hplaces⟩ := happended.produce now more
      fun f hf => ht f (List.mem_cons_of_mem _ hf)
    rw [produce_cons hanswer]
    refine ⟨?_, congrArg (ticket :: ·) htickets, fun q => ?_⟩
    · refine hcarries.congr (fun q => ?_) fun q => ?_
      · rw [lane_cons, List.mem_singleton]
        by_cases hpq : p = q
        · simp [hpq]
        · simp [hpq, Ne.symm hpq]
      · exact congrArg (lane q) (List.append_assoc loads batch.loads more).symm
    · have hbatch : lane q batch.loads = if p = q then [(record, ticket)] else [] := lane_loads q batch
      have hq := hplaces q
      rw [lane_append, hbatch] at hq
      refine (told_cons ..).trans ?_
      rw [lane_cons]
      by_cases hpq : p = q
      · subst hpq
        rw [if_pos rfl, List.length_append] at hq
        rw [if_pos rfl, if_pos rfl]
        exact congrArg (_ :: ·) hq
      · rw [if_neg hpq, List.append_nil] at hq
        rw [if_neg hpq, if_neg hpq]
        exact hq

/-- Tickets that are told the same of each partition are told the same. -/
theorem perm_of_partitions {told told' : List (Ticket × Placement)}
    (h : ∀ p, told.filter (·.2.spot.1 = p) = told'.filter (·.2.spot.1 = p)) : told.Perm told' := by
  refine List.perm_iff_count.mpr fun x => ?_
  have hcount : ∀ xs : List (Ticket × Placement),
      (xs.filter (·.2.spot.1 = x.2.spot.1)).count x = xs.count x := fun xs =>
    List.count_filter (decide_eq_true rfl)
  rw [← hcount told, ← hcount told', h]

end Broker
end FencedLog
