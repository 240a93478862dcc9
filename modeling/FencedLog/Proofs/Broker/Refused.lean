/-
# A refused request leaves the broker as it was

Whatever a broker is asked, and however far it gets before it refuses, the
refusal leaves every log, every transactional id and the next producer number
as they were. Two traces may stay: a refusal by a newer epoch is counted, and
topics that an enrollment made before it was refused are there, with empty
logs (`Undone`). So an enrollment takes all of its partitions or none, and an
append all of its records or none (`Whole`).

Key definitions: `BrokerError.isSuperseded`, `Coordinator.recount`,
`Broker.Made`, `Broker.Undone`, `Broker.Whole`.
Key theorems: `Coordinator.refuse_eq`, `Broker.made_ensureAll`,
`Broker.undone`, `Broker.whole_run`.
-/
import FencedLog.Proofs.Broker.Alone
import FencedLog.Proofs.Broker.Fencing

namespace FencedLog

/-- Whether the refusal says that a newer epoch exists. -/
def BrokerError.isSuperseded : BrokerError → Bool
  | fenced .. => true
  | _ => false

/-! ### The coordinator -/

namespace Coordinator

/-- A refusal by a newer epoch is counted. -/
def recount (c : Coordinator) (e : BrokerError) : Coordinator :=
  { c with tally := { c.tally with fenced := c.tally.fenced + if e.isSuperseded then 1 else 0 } }

variable {c c' : Coordinator} {e : BrokerError} {now : Span} {x : String} {id : Identity}
  {p : TopicPartition} {ps : List TopicPartition} {o : Outcome}

theorem recount_of_not (h : e.isSuperseded = false) : c.recount e = c := by
  rw [recount, h]
  rfl

theorem refuse_eq {α : Type} (c : Coordinator) (e : BrokerError) :
    c.refuse (α := α) e = (c.recount e, .error e) := by
  cases e <;> rfl

theorem enroll_error (h : c.enroll now x id ps = (c', .error e)) : c' = c.recount e := by
  unfold enroll at h
  cases ha : c.authorize x id with
  | ok t =>
    rw [ha] at h
    cases h
  | error e' =>
    simp only [ha, refuse_eq, Prod.mk.injEq, Except.error.injEq] at h
    rw [← h.1, h.2]

theorem permit_error (h : c.permit x id p = (c', .error e)) : c' = c.recount e := by
  unfold permit at h
  cases ha : c.authorize x id with
  | error e' =>
    simp only [ha, refuse_eq, Prod.mk.injEq, Except.error.injEq] at h
    rw [← h.1, h.2]
  | ok t =>
    -- a wrong stage and a missing partition are refused without a count
    simp only [ha] at h
    split at h
    · cases h
      exact (recount_of_not rfl).symm
    · split at h
      · cases h
      · cases h
        exact (recount_of_not rfl).symm

theorem permit_ok (h : c.permit x id p = (c', .ok ())) : c' = c := by
  unfold permit at h
  cases ha : c.authorize x id with
  | error e =>
    simp only [ha, refuse_eq, Prod.mk.injEq, reduceCtorEq, and_false] at h
  | ok t =>
    simp only [ha] at h
    split at h
    · cases h
    · split at h <;> cases h
      rfl

theorem finishStale_error {t : Transaction} (h : c.finishStale t id o = (c', .error e)) :
    c' = c.recount e := by
  unfold finishStale at h
  split at h
  · cases h
  · split at h
    · cases h
    · simp only [refuse_eq, Prod.mk.injEq, Except.error.injEq] at h
      rw [← h.1, h.2]

theorem finish_error (h : c.finish x id o = (c', .error e)) : c' = c.recount e := by
  unfold finish at h
  cases hd : c.describe x with
  | none =>
    rw [hd] at h
    cases h
    exact (recount_of_not rfl).symm
  | some t =>
    simp only [hd] at h
    split at h
    · exact finishStale_error h
    · cases hv : t.validate id with
      | error e' =>
        simp only [hv, refuse_eq, Prod.mk.injEq, Except.error.injEq] at h
        rw [← h.1, h.2]
      | ok u =>
        simp only [hv] at h
        cases hs : t.stage with
        | ongoing => simp [hs] at h
        | empty => simp [hs] at h
        | completed became =>
          simp only [hs] at h
          split at h
          · cases h
          · cases h
            exact (recount_of_not rfl).symm

end Coordinator

namespace Broker

variable {b b' : Broker} {now : Span} {q : Request} {e : BrokerError}

/-! ### Topics made on demand -/

/-- The topic is the one of an enrolled partition. -/
def Enrolls (ps : List TopicPartition) (topic : String) : Prop := ∃ p ∈ ps, p.topic = topic

/-- To the topics those of `ps` were added that did not exist and may be made
on demand, each with empty logs. -/
def Made (b b' : Broker) (ps : List TopicPartition) : Prop :=
  ∃ made, b'.topics.rows = b.topics.rows ++ made ∧ ∀ row ∈ made,
    b.config.autoCreateTopics = true ∧ Enrolls ps row.1 ∧ b.topics.contains row.1 = false ∧
      row.2 = List.replicate (max b.config.defaultPartitions 1) Log.empty

theorem made_refl (b : Broker) (ps : List TopicPartition) : Made b b ps := ⟨[], by simp, by simp⟩

theorem made_of_topics (h : b'.topics = b.topics) (ps : List TopicPartition) : Made b b' ps :=
  ⟨[], by simp [h], by simp⟩

theorem contains_of_rows {t t' : Table String (List Log)} {made : List (String × List Log)}
    (h : t'.rows = t.rows ++ made) {topic : String} (hc : t'.contains topic = false) :
    t.contains topic = false := by
  have hnone : ∀ {t : Table String (List Log)}, t.contains topic = false ↔ topic ∉ t.keys := by
    intro t
    rw [Table.contains, Option.isSome_eq_false_iff, Option.isNone_iff_eq_none]
    exact Table.find_eq_none_iff
  rw [hnone] at hc ⊢
  intro hm
  apply hc
  rw [Table.keys, h, List.map_append]
  exact List.mem_append_left _ hm

theorem made_ensureTopic (b : Broker) (p : TopicPartition) (ps : List TopicPartition) :
    Made b (b.ensureTopic p.topic) (p :: ps) := by
  unfold ensureTopic
  split
  · rename_i hc
    simp only [Bool.and_eq_true, Bool.not_eq_true'] at hc
    refine ⟨[(p.topic, List.replicate (max b.config.defaultPartitions 1) Log.empty)], ?_, ?_⟩
    · have hnone : Table.find p.topic b.topics.rows = none := by
        simpa [Table.contains, Table.get?] using hc.2
      exact Table.write_of_find_none _ hnone
    · intro row hrow
      rw [List.mem_singleton.mp hrow]
      exact ⟨hc.1, ⟨p, List.mem_cons_self, rfl⟩, hc.2, rfl⟩
  · exact made_refl b _

theorem Made.trans {b₁ b₂ b₃ : Broker} {ps ps' : List TopicPartition} (hs : SameButTopics b₁ b₂)
    (h : Made b₁ b₂ ps) (h' : Made b₂ b₃ ps') (hsub : ∀ p ∈ ps', p ∈ ps) : Made b₁ b₃ ps := by
  obtain ⟨made, hrows, hmade⟩ := h
  obtain ⟨made', hrows', hmade'⟩ := h'
  refine ⟨made ++ made', by rw [hrows', hrows, List.append_assoc], fun row hrow => ?_⟩
  rcases List.mem_append.mp hrow with hm | hm
  · exact hmade row hm
  · obtain ⟨hauto, ⟨p, hp, ht⟩, hc, hlogs⟩ := hmade' row hm
    rw [hs.config] at hauto hlogs
    exact ⟨hauto, ⟨p, hsub p hp, ht⟩, contains_of_rows hrows hc, hlogs⟩

/-- To ensure partitions makes missing topics of theirs, and no others. -/
theorem made_ensureAll : ∀ (ps : List TopicPartition) (b : Broker), Made b (b.ensureAll ps).1 ps
  | [], b => made_refl b []
  | p :: ps, b => by
    have h := made_ensureTopic b p ps
    have hs := (grown_ensureTopic b p.topic).toSameButTopics
    unfold ensureAll
    simp only
    split
    · exact h.trans hs (made_ensureAll ps _) fun _ => List.mem_cons_of_mem p
    · exact h

/-! ### Refusals -/

/-- The partitions that a request may make topics for. -/
def makesFor : Request → List TopicPartition
  | .enroll _ _ ps => ps
  | _ => []

/-- What the refusal `e` of `q` leaves behind of the broker `b`. -/
structure Undone (b : Broker) (q : Request) (e : BrokerError) (b' : Broker) : Prop where
  config : b'.config = b.config
  available : b'.available = b.available
  generation : b'.generation = b.generation
  /-- The transactional ids, their entries and the next producer number are the
  same, and exactly the refusals by a newer epoch are counted. -/
  coordinator : b'.coordinator = b.coordinator.recount e
  /-- Every log is as it was. -/
  kept : ∀ p log, b.log? p = some log → b'.log? p = some log
  /-- Only an enrollment adds topics, on demand and with empty logs. -/
  made : Made b b' (makesFor q)

/-- A refusal that changed the coordinator's count at most. -/
theorem undone_recount (b : Broker) (q : Request) (e : BrokerError) :
    Undone b q e { b with coordinator := b.coordinator.recount e } :=
  ⟨rfl, rfl, rfl, rfl, fun _ _ h => h, made_of_topics rfl _⟩

/-- A refusal that changed nothing. -/
theorem undone_refl (h : e.isSuperseded = false) (b : Broker) (q : Request) : Undone b q e b :=
  ⟨rfl, rfl, rfl, (Coordinator.recount_of_not h).symm, fun _ _ h => h, made_refl b _⟩

theorem undone_enroll {x : String} {id : Identity} {ps : List TopicPartition}
    (h : (b.enroll now x id ps).2 = .error e) :
    Undone b (.enroll x id ps) e (b.enroll now x id ps).1 := by
  have hg := grown_ensureAll ps b
  have hm := made_ensureAll ps b
  rcases enroll_spec b now x id ps with ⟨e', hb, henroll⟩ | ⟨-, henroll⟩ <;> rw [henroll] at h ⊢
  · rw [← Except.error.inj h]
    have he : e'.isSuperseded = false := by
      have hf := ensureAll_error hb
      cases e' <;> first | rfl | cases hf
    exact ⟨hg.config, hg.available, hg.generation,
      hg.coordinator.trans (Coordinator.recount_of_not he).symm, hg.kept, hm⟩
  · cases hr : b.coordinator.enroll now x id ps with
    | mk c r =>
      cases r with
      | ok u => simp [hr, Except.map] at h
      | error e' =>
        simp only [hr, Except.map, Except.error.injEq] at h
        exact ⟨hg.config, hg.available, hg.generation, h ▸ Coordinator.enroll_error hr,
          hg.kept, hm⟩

theorem undone_append {x : String} {id : Identity} {p : TopicPartition} {rs : List Record}
    (h : (b.append x id p rs).2 = .error e) :
    Undone b (.append x id p rs) e (b.append x id p rs).1 := by
  unfold append at h ⊢
  split at h
  · rw [← Except.error.inj h]
    exact undone_refl rfl b _
  · split at h
    · rename_i c e' hp
      rw [← Except.error.inj h, Coordinator.permit_error hp]
      exact undone_recount b _ e'
    · rename_i c hp
      obtain rfl := Coordinator.permit_ok hp
      simp only at h ⊢
      split at h
      · cases h
      · rw [← Except.error.inj h]
        exact undone_refl rfl b _

theorem undone_finish {x : String} {id : Identity} {o : Outcome}
    (h : (b.finish x id o).2 = .error e) : Undone b (.finish x id o) e (b.finish x id o).1 := by
  unfold finish at h ⊢
  split at h
  · rename_i c e' hf
    rw [← Except.error.inj h, Coordinator.finish_error hf]
    exact undone_recount b _ e'
  · cases h
  · cases h

/-- A listing is refused only if its topic is not made on demand. -/
theorem undone_listing {topic : String} (h : (b.listing topic).2 = .error e) :
    Undone b (.listing topic) e (b.listing topic).1 := by
  unfold listing ensureTopic at h ⊢
  by_cases hc : (b.config.autoCreateTopics && !b.topics.contains topic) = true
  · simp only [hc, ↓reduceIte, Table.get?_put_self, reduceCtorEq] at h
  · simp only [hc, Bool.false_eq_true, ↓reduceIte] at h ⊢
    split at h
    · cases h
    · rw [← Except.error.inj h]
      exact undone_refl rfl b _

/-- **A refused request is undone**, whatever the request and the broker. -/
theorem undone (h : (b.handle now q).2 = .error e) : Undone b q e (b.handle now q).1 := by
  by_cases ha : b.available = true
  · cases q <;> simp only [handle, ha, ↓reduceIte] at h ⊢
    case init x timeout => cases h
    case enroll x id ps => exact undone_enroll h
    case append x id p rs => exact undone_append h
    case finish x id o => exact undone_finish h
    case listing topic => exact undone_listing h
  · simp only [handle, ha, Bool.false_eq_true, ↓reduceIte, Except.error.injEq] at h ⊢
    rw [← h]
    exact undone_refl rfl b q

/-! ### All or nothing -/

/-- Every listed partition is enrolled, in the transaction that is ongoing or in
a new one. -/
def TakesAll (b : Broker) (x : String) (id : Identity) (ps : List TopicPartition)
    (b' : Broker) : Prop :=
  ∃ t t', b.coordinator.describe x = some t ∧ b'.coordinator.describe x = some t' ∧
    t'.identity = id ∧ t'.stage = .ongoing ∧
    ∀ p, p ∈ t'.partitions ↔ p ∈ ps ∨ t.stage = .ongoing ∧ p ∈ t.partitions

/-- Every record is in the log of `p`, at consecutive offsets from `base`, and
nothing else has changed. -/
structure AppendsAll (b : Broker) (id : Identity) (p : TopicPartition) (rs : List Record)
    (base : Nat) (b' : Broker) : Prop where
  same : SameButTopics b b'
  others : ∀ q, q ≠ p → b'.log? q = b.log? q
  log : ∃ log, b.log? p = some log ∧ base = log.next ∧ b'.log? p = some
    ⟨log.entries ++ rs.mapIdx fun i r => .data (base + i) (some id.producer) r, base + rs.length⟩

/-- A request is carried out as a whole, or leaves the broker as it was. -/
structure Whole (b : Broker) (now : Span) (q : Request) : Prop where
  refused : ∀ e, (b.handle now q).2 = .error e → Undone b q e (b.handle now q).1
  /-- A broker that is not available does nothing at all. -/
  unavailable : b.available = false →
    b.handle now q = (b, .error (.unavailable "transaction coordinator is not available"))
  enrolled : ∀ x id ps, q = .enroll x id ps → ∀ reply, (b.handle now q).2 = .ok reply →
    TakesAll b x id ps (b.handle now q).1
  appended : ∀ x id p rs, q = .append x id p rs → ∀ reply, (b.handle now q).2 = .ok reply →
    ∃ base, reply = .appended base ∧ AppendsAll b id p rs base (b.handle now q).1

theorem entriesFrom_eq_mapIdx (producer : Option Int) : ∀ (rs : List Record) (offset : Nat),
    Log.entriesFrom offset producer rs = rs.mapIdx fun i r => .data (offset + i) producer r
  | [], _ => rfl
  | r :: rs, offset => by
    rw [Log.entriesFrom, entriesFrom_eq_mapIdx producer rs, List.mapIdx_cons]
    simp only [Nat.add_zero, Nat.add_assoc, Nat.add_comm 1]

theorem takesAll (hs : b.coordinator.Sound) {x : String} {id : Identity} {ps : List TopicPartition}
    {reply : Reply} (h : (b.enroll now x id ps).2 = .ok reply) :
    TakesAll b x id ps (b.enroll now x id ps).1 := by
  rcases enroll_spec b now x id ps with ⟨e, -, henroll⟩ | ⟨-, henroll⟩ <;> rw [henroll] at h ⊢
  · cases h
  · rcases Coordinator.enroll_spec b.coordinator now x id ps with
      ⟨t, hd, rfl, -, hput, -⟩ | ⟨e, -, he, -⟩
    · refine ⟨t, t.enroll now ps, hd, ?_, t.enroll_identity now ps, t.enroll_stage now ps,
        fun p => t.mem_enroll_partitions⟩
      show Table.get? _ x = _
      rw [hput, hs.named x t hd, Table.get?_put_self]
    · rw [he] at h
      cases h

theorem appendsAll {x : String} {id : Identity} {p : TopicPartition} {rs : List Record}
    {reply : Reply} (h : (b.append x id p rs).2 = .ok reply) :
    ∃ base, reply = .appended base ∧ AppendsAll b id p rs base (b.append x id p rs).1 := by
  unfold append at h ⊢
  split at h
  · cases h
  · split at h
    · cases h
    · rename_i c hp
      obtain rfl := Coordinator.permit_ok hp
      simp only at h ⊢
      split at h
      · rename_i log hl
        have hlog := log?_putLog hl (log.append (some id.producer) rs)
        refine ⟨log.next, (Except.ok.inj h).symm, same_putLog _ p _, fun q hq => ?_, log, hl, rfl, ?_⟩
        · rw [hlog, if_neg (Ne.symm hq)]
        · rw [hlog, if_pos rfl, Log.append, entriesFrom_eq_mapIdx]
      · cases h

/-- **In every run of the broker a request is carried out as a whole or leaves
the broker as it was.** -/
theorem whole_run (config : BrokerConfig) (ops : List Op) (now : Span) (q : Request) :
    Whole ((start config).run ops) now q where
  refused := fun _ h => undone h
  unavailable := fun h => by simp [handle, h]
  enrolled := by
    rintro x id ps rfl reply h
    by_cases ha : ((start config).run ops).available = true
    · simp only [handle, ha, ↓reduceIte] at h ⊢
      exact takesAll (sound_run (Coordinator.sound_start _) ops) h
    · simp [handle, ha] at h
  appended := by
    rintro x id p rs rfl reply h
    by_cases ha : ((start config).run ops).available = true
    · simp only [handle, ha, ↓reduceIte] at h ⊢
      exact appendsAll h
    · simp [handle, ha] at h

end Broker
end FencedLog
