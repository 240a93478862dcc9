/-
# What a broker does with an operation

An operation on a broker puts at most one operation to its coordinator
(`act_coordinator`), and to each partition it adds items at the end: records
of an append, or the markers of the transactions that it ends (`act_log`).
Only a deleted topic loses its logs, and a new topic has empty ones.

Key definitions: `Broker.Op`, `Broker.act`, `Broker.run`, `Broker.order?`,
`Broker.posts`, `Broker.Adds`.
Key theorems: `Broker.act_coordinator`, `Broker.adds_act`, `Broker.act_log`,
`Broker.act_log_none`.
-/
import FencedLog.Proofs.Broker.Topics
import FencedLog.Proofs.Coordinator.Closing

namespace FencedLog
namespace Broker

/-- What may be done with a broker. -/
inductive Op where
  | request (now : Span) (q : Request)
  | expire (now : Span)
  | appendPlain (p : TopicPartition) (records : List Record)
  | createTopic (topic : String) (count : Nat)
  | deleteTopic (topic : String)
  | setAvailable (available : Bool)
  | restart

def act (b : Broker) : Op → Broker
  | .request now q => (b.handle now q).1
  | .expire now => (b.expire now).1
  | .appendPlain p records => (b.appendPlain p records).1
  | .createTopic topic count => (b.createTopic topic count).1
  | .deleteTopic topic => (b.deleteTopic topic).1
  | .setAvailable available => b.setAvailable available
  | .restart => b.restart

/-- The broker after a list of operations. -/
def run (b : Broker) : List Op → Broker
  | [] => b
  | op :: ops => (b.act op).run ops

theorem run_append (ops more : List Op) (b : Broker) : b.run (ops ++ more) = (b.run ops).run more := by
  induction ops generalizing b with
  | nil => rfl
  | cons op ops ih => exact ih (b.act op)

/-- Whether some record of an append is too large for the broker. -/
def refusesSize (b : Broker) (records : List Record) : Bool :=
  records.any fun r => b.config.maxRecordBytes < r.size

/-- What the coordinator is asked for a request. -/
def orderOf (b : Broker) (now : Span) : Request → Option Coordinator.Op
  | .init x timeout => some (.init x timeout)
  | .enroll x id ps =>
    match (b.ensureAll ps).2 with
    | .ok () => some (.enroll now x id ps)
    | .error _ => none
  | .append x id p records => if b.refusesSize records then none else some (.permit x id p)
  | .finish x id o => some (.finish x id o)
  | .listing _ => none

/-- What the coordinator is asked for an operation. -/
def order? (b : Broker) : Op → Option Coordinator.Op
  | .request now q => if b.available then b.orderOf now q else none
  | .expire now => some (.expire now)
  | .appendPlain .. | .createTopic .. | .deleteTopic .. | .setAvailable .. | .restart => none

/-! ### The coordinator's part -/

theorem refusesSize_eq_false {b : Broker} {records : List Record}
    (h : records.find? (fun r => b.config.maxRecordBytes < r.size) = none) :
    b.refusesSize records = false := by
  rw [List.find?_eq_none] at h
  simpa [refusesSize] using h

theorem refusesSize_eq_true {b : Broker} {records : List Record} {r : Record}
    (h : records.find? (fun r => b.config.maxRecordBytes < r.size) = some r) :
    b.refusesSize records = true := by
  unfold refusesSize
  rw [List.any_eq_true]
  exact ⟨r, List.mem_of_find?_eq_some h, by simpa using List.find?_some h⟩

/-- An operation puts at most one operation to the coordinator. -/
theorem act_coordinator (b : Broker) (op : Op) :
    (b.act op).coordinator = (b.order? op).elim b.coordinator b.coordinator.act := by
  cases op with
  | request now q =>
    by_cases ha : b.available = true
    · simp only [act, handle, order?, ha, ↓reduceIte]
      cases q with
      | init x timeout =>
        simp only [init, orderOf, Option.elim, Coordinator.act]
        split
        · rw [(same_close _ _).coordinator]
        · rfl
      | enroll x id ps =>
        rcases enroll_spec b now x id ps with ⟨e, hb, he⟩ | ⟨hb, he⟩
        · simp only [he, orderOf, hb, Option.elim]
          exact (grown_ensureAll ps b).coordinator
        · simp only [he, orderOf, hb, Option.elim, Coordinator.act]
      | append x id p records =>
        simp only [append, orderOf]
        split
        · rename_i r hr
          rw [refusesSize_eq_true hr]
          rfl
        · rename_i hr
          rw [refusesSize_eq_false hr]
          simp only [Bool.false_eq_true, ↓reduceIte, Option.elim, Coordinator.act]
          split
          · rename_i c e hp
            rw [hp]
          · rename_i c hp
            rw [hp]
            split
            · rw [(same_putLog _ _ _).coordinator]
            · rfl
      | finish x id o =>
        simp only [finish, orderOf, Option.elim, Coordinator.act]
        split
        · rename_i c e hf
          rw [hf]
        · rename_i c hf
          rw [hf]
        · rename_i c closing hf
          rw [hf, (same_close _ _).coordinator]
      | listing topic =>
        simp only [listing, orderOf, Option.elim]
        split <;> exact (grown_ensureTopic b topic).coordinator
    · simp only [act, handle, order?, ha, Bool.false_eq_true, ↓reduceIte, Option.elim]
  | expire now =>
    simp only [act, expire, order?, Option.elim, Coordinator.act]
    rw [(same_closeAll _ _).coordinator]
  | appendPlain p records =>
    simp only [act, appendPlain, order?, Option.elim]
    split
    · exact (same_putLog b p _).coordinator
    · rfl
  | createTopic topic count =>
    simp only [act, createTopic, order?, Option.elim]
    split
    · rfl
    · split <;> rfl
  | deleteTopic topic =>
    simp only [act, deleteTopic, order?, Option.elim]
    split <;> rfl
  | setAvailable available => rfl
  | restart => rfl

/-! ### The logs' part -/

theorem log?_eq_of_topics {b b' : Broker} (h : b'.topics = b.topics) (p : TopicPartition) :
    b'.log? p = b.log? p := by
  unfold log?
  rw [h]

/-- An append is carried out for the ongoing transaction of the current
identity, on an enrolled partition; else it changes no log. -/
theorem append_spec (b : Broker) (x : String) (id : Identity) (p : TopicPartition)
    (records : List Record) :
    (∃ t log, b.coordinator.describe x = some t ∧ id = t.identity ∧ t.stage = .ongoing ∧
      p ∈ t.partitions ∧ b.log? p = some log ∧
      (b.append x id p records).2 = .ok (.appended log.next) ∧
      ∀ q, (b.append x id p records).1.log? q =
        if p = q then some (log.extend (records.map (.record (some id.producer)))) else b.log? q) ∨
    (∃ e, (b.append x id p records).2 = .error e ∧
      (b.append x id p records).1.topics = b.topics) := by
  unfold append
  split
  · exact Or.inr ⟨_, rfl, rfl⟩
  · obtain ⟨-, hok, -⟩ := Coordinator.permit_spec b.coordinator x id p
    split
    · exact Or.inr ⟨_, rfl, rfl⟩
    · rename_i c hp
      obtain ⟨t, hd, hid, hs, hm⟩ := hok.mp (by rw [hp])
      have hc : ∀ q, ({ b with coordinator := c } : Broker).log? q = b.log? q :=
        log?_eq_of_topics rfl
      simp only [hc]
      cases hl : b.log? p with
      | none => exact Or.inr ⟨_, rfl, rfl⟩
      | some log =>
        refine Or.inl ⟨t, log, hd, hid, hs, hm, rfl, rfl, fun q => ?_⟩
        simp only [log?_putLog ((hc p).trans hl), Log.append_eq_extend, hc]

/-- The transactions that an operation ends. -/
def closings (b : Broker) (op : Op) : List Closing :=
  (b.order? op).elim [] b.coordinator.closings

/-- The records that an operation adds to a partition, each with the
transactional id in whose transaction it is written, if it is in any. -/
def records (b : Broker) : Op → TopicPartition → List (Log.Item × Option String)
  | .request now (.append x id q rs), p =>
    if q = p ∧ (b.handle now (.append x id q rs)).2.isOk then
      rs.map fun r => (.record (some id.producer) r, some x)
    else []
  | .appendPlain q rs, p => if q = p then rs.map fun r => (.record none r, none) else []
  | _, _ => []

/-- The items that an operation adds to a partition: records, or the markers of
the transactions that it ends. -/
def posts (b : Broker) (op : Op) (p : TopicPartition) : List (Log.Item × Option String) :=
  b.records op p ++ (b.closings op).flatMap fun closing =>
    (markersOf closing p).map fun item => (item, some closing.txid)

theorem posts_items (b : Broker) (op : Op) (p : TopicPartition) : (b.posts op p).map (·.1) =
    (b.records op p).map (·.1) ++ (b.closings op).flatMap fun closing => markersOf closing p := by
  simp [posts, List.map_flatMap, Function.comp_def]

theorem closings_of_order {b : Broker} {op : Op} {o : Coordinator.Op} (h : b.order? op = some o) :
    b.closings op = b.coordinator.closings o := by
  rw [closings, h]
  rfl

theorem closings_of_no_order {b : Broker} {op : Op} (h : b.order? op = none) :
    b.closings op = [] := by
  rw [closings, h]
  rfl

/-- An enrollment, an append and a listing end no transaction. -/
theorem closings_request_eq_nil (b : Broker) (now : Span) {q : Request}
    (h : (∃ x id ps, q = .enroll x id ps) ∨ (∃ x id p rs, q = .append x id p rs) ∨
      ∃ topic, q = .listing topic) : b.closings (.request now q) = [] := by
  rcases h with ⟨x, id, ps, rfl⟩ | ⟨x, id, p, rs, rfl⟩ | ⟨topic, rfl⟩
  · simp only [closings, order?, orderOf]
    split
    · split <;> rfl
    · rfl
  · simp only [closings, order?, orderOf]
    split
    · split <;> rfl
    · rfl
  · simp only [closings, order?, orderOf]
    split <;> rfl

/-- These items are put at the end of a partition's log, and a log that was not
there is empty. -/
structure Adds (b b' : Broker) (p : TopicPartition) (items : List Log.Item) : Prop where
  kept : ∀ log, b.log? p = some log → b'.log? p = some (log.extend items)
  fresh : ∀ log, b.log? p = none → b'.log? p = some log → log = Log.empty

section Adds

variable {b b' : Broker} {now : Span} {p : TopicPartition}

theorem adds_of_topics (h : b'.topics = b.topics) : Adds b b' p [] where
  kept := fun log hl => by rw [log?_eq_of_topics h, hl, Log.extend_nil]
  fresh := fun log hn hl => by
    rw [log?_eq_of_topics h, hn] at hl
    cases hl

theorem Grown.adds (h : Grown b b') : Adds b b' p [] where
  kept := fun log hl => by rw [h.kept p log hl, Log.extend_nil]
  fresh := fun log hn hl => (h.fresh p log hn hl).2

theorem adds_closeAll (h : b'.topics = b.topics) (closings : List Closing) :
    Adds b (closings.foldl close b') p (closings.flatMap fun closing => markersOf closing p) where
  kept := fun log hl => by
    rw [log?_closeAll, log?_eq_of_topics h, hl]
    rfl
  fresh := fun log hn hl => by
    rw [log?_closeAll, log?_eq_of_topics h, hn] at hl
    cases hl

theorem adds_close (h : b'.topics = b.topics) (closing : Closing) :
    Adds b (b'.close closing) p (markersOf closing p) := by
  have hadds : Adds b _ p _ := adds_closeAll h [closing]
  rwa [List.flatMap_singleton] at hadds

/-- Items are put at the end of the log of `q`. -/
theorem adds_extend {q : TopicPartition} {log : Log} (hl : b.log? q = some log)
    {items : List Log.Item}
    (h : b'.log? p = if q = p then some (log.extend items) else b.log? p) :
    Adds b b' p (if q = p then items else []) := by
  by_cases hqp : q = p
  · subst hqp
    rw [if_pos rfl] at h ⊢
    refine ⟨fun log' hl' => ?_, fun log' hn => ?_⟩
    · rw [h, ← Option.some.inj (hl.symm.trans hl')]
    · rw [hl] at hn
      cases hn
  · rw [if_neg hqp] at h ⊢
    refine ⟨fun log' hl' => ?_, fun log' hn hl' => ?_⟩
    · rw [h, hl', Log.extend_nil]
    · rw [h, hn] at hl'
      cases hl'

theorem posts_of_closings {op : Op} {closings : List Closing} (hr : b.records op p = [])
    (hc : b.closings op = closings) :
    (b.posts op p).map (·.1) = closings.flatMap fun closing => markersOf closing p := by
  rw [posts_items, hr, hc]
  rfl

theorem adds_init (ha : b.available = true) (x : String) (timeout : Span) :
    Adds b (b.handle now (.init x timeout)).1 p ((b.posts (.request now (.init x timeout)) p).map
      (·.1)) := by
  have ho : b.order? (.request now (.init x timeout)) = some (.init x timeout) := by
    simp only [order?, ha, ↓reduceIte, orderOf]
  have hc : b.closings (.request now (.init x timeout)) =
      (b.coordinator.init x timeout).2.2.toList := closings_of_order ho
  rw [posts_of_closings rfl hc]
  simp only [handle, ha, ↓reduceIte, init]
  cases (b.coordinator.init x timeout).2.2 with
  | none => exact adds_of_topics rfl
  | some closing =>
    rw [Option.toList_some, List.flatMap_singleton]
    apply adds_close
    rfl

theorem adds_enroll (ha : b.available = true) (x : String) (id : Identity)
    (ps : List TopicPartition) :
    Adds b (b.handle now (.enroll x id ps)).1 p ((b.posts (.request now (.enroll x id ps)) p).map
      (·.1)) := by
  have hg := grown_ensureAll ps b
  rw [posts_of_closings rfl (closings_request_eq_nil b now (Or.inl ⟨x, id, ps, rfl⟩))]
  simp only [handle, ha, ↓reduceIte]
  rcases enroll_spec b now x id ps with ⟨e, -, he⟩ | ⟨-, he⟩
  · rw [he]
    exact hg.adds
  · have hl : ∀ coordinator, Adds b { (b.ensureAll ps).1 with coordinator := coordinator } p [] :=
      fun _ => ⟨hg.adds.kept, hg.adds.fresh⟩
    rw [he]
    exact hl _

theorem adds_append (ha : b.available = true) (x : String) (id : Identity) (q : TopicPartition)
    (rs : List Record) :
    Adds b (b.handle now (.append x id q rs)).1 p ((b.posts (.request now (.append x id q rs)) p).map
      (·.1)) := by
  rw [posts_items, closings_request_eq_nil b now (Or.inr (Or.inl ⟨x, id, q, rs, rfl⟩))]
  simp only [handle, ha, ↓reduceIte, records]
  rcases append_spec b x id q rs with ⟨t, log, -, -, -, -, hl, hok, hq⟩ | ⟨e, herr, ht⟩
  · have hadds := adds_extend hl (hq p)
    rw [hok]
    by_cases hqp : q = p
    · rw [if_pos hqp] at hadds
      rw [if_pos ⟨hqp, rfl⟩]
      simpa [Function.comp_def] using hadds
    · rw [if_neg hqp] at hadds
      rw [if_neg fun hc => hqp hc.1]
      exact hadds
  · rw [herr, if_neg (by simp [Except.isOk, Except.toBool])]
    exact adds_of_topics ht

theorem adds_finish (ha : b.available = true) (x : String) (id : Identity) (o : Outcome) :
    Adds b (b.handle now (.finish x id o)).1 p ((b.posts (.request now (.finish x id o)) p).map
      (·.1)) := by
  have ho : b.order? (.request now (.finish x id o)) = some (.finish x id o) := by
    simp only [order?, ha, ↓reduceIte, orderOf]
  have hc : b.closings (.request now (.finish x id o)) =
      Coordinator.handedBack (b.coordinator.finish x id o).2 := closings_of_order ho
  rw [posts_of_closings rfl hc]
  simp only [handle, ha, ↓reduceIte, finish]
  split
  · rename_i c e hf
    rw [hf]
    exact adds_of_topics rfl
  · rename_i c hf
    rw [hf]
    exact adds_of_topics rfl
  · rename_i c closing hf
    rw [hf, Coordinator.handedBack, List.flatMap_singleton]
    apply adds_close
    rfl

theorem adds_listing (ha : b.available = true) (topic : String) :
    Adds b (b.handle now (.listing topic)).1 p ((b.posts (.request now (.listing topic)) p).map
      (·.1)) := by
  rw [posts_of_closings rfl (closings_request_eq_nil b now (Or.inr (Or.inr ⟨topic, rfl⟩)))]
  simp only [handle, ha, ↓reduceIte, listing]
  split <;> exact (grown_ensureTopic b topic).adds

/-- A request adds its posts. -/
theorem adds_request (q : Request) :
    Adds b (b.handle now q).1 p ((b.posts (.request now q) p).map (·.1)) := by
  by_cases ha : b.available = true
  · cases q with
    | init x timeout => exact adds_init ha x timeout
    | enroll x id ps => exact adds_enroll ha x id ps
    | append x id q rs => exact adds_append ha x id q rs
    | finish x id o => exact adds_finish ha x id o
    | listing topic => exact adds_listing ha topic
  · -- the broker does nothing
    have hr : b.records (.request now q) p = [] := by
      cases q with
      | append x id q rs => simp [records, handle, ha, Except.isOk, Except.toBool]
      | _ => rfl
    rw [posts_of_closings hr (closings_of_no_order (by simp [order?, ha])),
      handle_of_not_available (by simpa using ha)]
    exact adds_of_topics rfl

theorem adds_appendPlain (q : TopicPartition) (rs : List Record) :
    Adds b (b.appendPlain q rs).1 p ((b.posts (.appendPlain q rs) p).map (·.1)) := by
  have hposts : (b.posts (.appendPlain q rs) p).map (·.1) =
      if q = p then rs.map (.record none) else [] := by
    rw [posts_items, closings_of_no_order rfl, records]
    split <;> simp [Function.comp_def]
  rw [hposts, appendPlain]
  split
  · rename_i log hl
    refine adds_extend hl ?_
    rw [log?_putLog hl, Log.append_eq_extend]
  · rename_i hn
    refine ⟨fun log hl => ?_, (adds_of_topics rfl).fresh⟩
    have hqp : q ≠ p := by
      rintro rfl
      rw [hl] at hn
      cases hn
    rw [if_neg hqp, Log.extend_nil]
    exact hl

theorem adds_createTopic (topic : String) (count : Nat) :
    Adds b (b.createTopic topic count).1 p [] := by
  unfold createTopic
  split
  · exact adds_of_topics rfl
  · split
    · exact adds_of_topics rfl
    · rename_i hc
      obtain ⟨hkept, hfresh⟩ := log?_newTopic (by simpa using hc) count p
      refine ⟨fun log hl => ?_, hfresh⟩
      rw [Log.extend_nil]
      exact hkept log hl

theorem adds_deleteTopic {topic : String} (h : topic ≠ p.topic) :
    Adds b (b.deleteTopic topic).1 p [] := by
  unfold deleteTopic
  split
  · have hl : ({ b with topics := b.topics.erase topic } : Broker).log? p = b.log? p := by
      simp [log?, Table.get?_erase, h]
    refine ⟨fun log hl' => ?_, fun log hn hl' => ?_⟩
    · rw [hl, hl', Log.extend_nil]
    · rw [hl, hn] at hl'
      cases hl'
  · exact adds_of_topics rfl

/-- **An operation adds its posts**, unless it deletes the topic. -/
theorem adds_act {op : Op} (hd : op ≠ .deleteTopic p.topic) :
    Adds b (b.act op) p ((b.posts op p).map (·.1)) := by
  cases op with
  | request now q => exact adds_request q
  | expire now =>
    rw [posts_of_closings rfl (closings_of_order rfl)]
    apply adds_closeAll
    rfl
  | appendPlain q rs => exact adds_appendPlain q rs
  | createTopic topic count => exact adds_createTopic topic count
  | deleteTopic topic => exact adds_deleteTopic fun he => hd (he ▸ rfl)
  | setAvailable available => exact adds_of_topics rfl
  | restart => exact adds_of_topics rfl

end Adds

/-- The logs of a deleted topic are gone. -/
theorem log?_deleteTopic (b : Broker) (p : TopicPartition) :
    (b.act (.deleteTopic p.topic)).log? p = none := by
  simp only [act, deleteTopic]
  split
  · simp [log?]
  · rename_i ht
    have hn : b.topics.get? p.topic = none := by simpa [Table.contains] using ht
    simp [log?, hn]

/-- A log gets the posts of an operation at its end, unless it is deleted. -/
theorem act_log {b : Broker} {op : Op} {p : TopicPartition} {log : Log} (h : b.log? p = some log)
    (hd : op ≠ .deleteTopic p.topic) :
    (b.act op).log? p = some (log.extend ((b.posts op p).map (·.1))) :=
  (adds_act hd).kept log h

/-- A log that was not there before is empty. -/
theorem act_log_none {b : Broker} {op : Op} {p : TopicPartition} (h : b.log? p = none) {log : Log}
    (hp : (b.act op).log? p = some log) : log = Log.empty := by
  have hd : op ≠ .deleteTopic p.topic := by
    rintro rfl
    rw [log?_deleteTopic] at hp
    cases hp
  exact (adds_act hd).fresh log h hp

/-- A posted record is written in the ongoing transaction of the identity that
its transactional id has, or in none. -/
theorem of_mem_records {b : Broker} {op : Op} {p : TopicPartition} {item : Log.Item}
    {x : Option String} (h : (item, x) ∈ b.records op p) :
    (∃ r, item = .record none r ∧ x = none) ∨
    (∃ t y r, x = some y ∧ b.coordinator.describe y = some t ∧ t.stage = .ongoing ∧
      p ∈ t.partitions ∧ item = .record (some t.identity.producer) r) := by
  cases op with
  | request now q =>
    cases q with
    | append y id q rs =>
      simp only [records] at h
      split at h
      · rename_i hc
        obtain ⟨rfl, hok⟩ := hc
        obtain ⟨r, -, hr⟩ := List.mem_map.mp h
        obtain ⟨rfl, rfl⟩ := Prod.mk.inj hr
        by_cases ha : b.available = true
        · simp only [handle, ha, ↓reduceIte] at hok
          rcases append_spec b y id q rs with ⟨t, -, hd, rfl, hs, hm, -⟩ | ⟨e, he, -⟩
          · exact Or.inr ⟨t, y, r, rfl, hd, hs, hm, rfl⟩
          · simp [he, Except.isOk, Except.toBool] at hok
        · simp [handle, ha, Except.isOk, Except.toBool] at hok
      · simp at h
    | _ => simp [records] at h
  | appendPlain q rs =>
    simp only [records] at h
    split at h
    · obtain ⟨r, -, hr⟩ := List.mem_map.mp h
      obtain ⟨rfl, rfl⟩ := Prod.mk.inj hr
      exact Or.inl ⟨r, rfl, rfl⟩
    · simp at h
  | _ => simp [records] at h

/-- An operation that adds records ends no transaction and moves no entry. -/
theorem describe_of_records {b : Broker} {op : Op} {p : TopicPartition}
    (h : b.records op p ≠ []) : b.closings op = [] ∧
      ∀ x, (b.act op).coordinator.describe x = b.coordinator.describe x := by
  cases op with
  | request now q =>
    cases q with
    | append y id q rs =>
      refine ⟨closings_request_eq_nil b now (Or.inr (Or.inl ⟨y, id, q, rs, rfl⟩)), fun x => ?_⟩
      rw [act_coordinator]
      simp only [order?, orderOf]
      split
      · split
        · rfl
        · exact (Coordinator.permit_spec b.coordinator y id q).1.describe x
      · rfl
    | _ => exact absurd rfl h
  | appendPlain q rs =>
    refine ⟨rfl, fun x => ?_⟩
    rw [act_coordinator]
    rfl
  | _ => exact absurd rfl h

/-! ### What ends -/

/-- The outcome of the transactions that an operation ends. -/
def Op.outcome : Op → Outcome
  | .request _ (.finish _ _ o) => o
  | _ => .abort

theorem outcome_of_order {b : Broker} {op : Op} {o : Coordinator.Op} (h : b.order? op = some o) :
    o.outcome = op.outcome := by
  cases op with
  | request now q =>
    simp only [order?] at h
    split at h
    · cases q with
      | enroll x id ps =>
        simp only [orderOf] at h
        split at h
        · rw [← Option.some.inj h]
          rfl
        · cases h
      | append x id p rs =>
        simp only [orderOf] at h
        split at h
        · cases h
        · rw [← Option.some.inj h]
          rfl
      | listing topic => cases h
      | _ =>
        rw [← Option.some.inj h]
        rfl
    · cases h
  | expire now =>
    rw [← Option.some.inj h]
    rfl
  | _ => cases h

theorem sound_act {b : Broker} (h : b.coordinator.Sound) (op : Op) :
    (b.act op).coordinator.Sound := by
  rw [act_coordinator]
  cases b.order? op with
  | none => exact h
  | some o => exact Coordinator.sound_act h o

/-- The closings of an operation are the transactions it ends. -/
theorem mem_closings {b : Broker} (h : b.coordinator.Sound) {op : Op} {closing : Closing} :
    closing ∈ b.closings op ↔ ∃ t, b.coordinator.describe closing.txid = some t ∧
      t.stage = .ongoing ∧ closing = (t.complete op.outcome).2 ∧
      ¬ (b.act op).coordinator.UnderWay closing.txid t.identity := by
  rw [act_coordinator]
  cases ho : b.order? op with
  | none =>
    rw [closings_of_no_order ho]
    simp only [List.not_mem_nil, Option.elim, false_iff, not_exists, not_and, not_not]
    exact fun t hd hs _ => ⟨t, hd, hs, rfl⟩
  | some o =>
    rw [closings_of_order ho, ← outcome_of_order ho]
    exact Coordinator.mem_closings h

theorem order?_eq_enroll {b : Broker} {op : Op} {now : Span} {x : String} {id : Identity}
    {ps : List TopicPartition} (h : b.order? op = some (.enroll now x id ps)) :
    op = .request now (.enroll x id ps) := by
  cases op with
  | request now' q =>
    simp only [order?] at h
    split at h
    · cases q with
      | enroll y id' ps' =>
        simp only [orderOf] at h
        split at h
        · obtain ⟨rfl, rfl, rfl, rfl⟩ := Coordinator.Op.enroll.inj (Option.some.inj h)
          rfl
        · cases h
      | append y id' p rs =>
        simp only [orderOf] at h
        split at h <;> cases h
      | _ => cases h
    · cases h
  | _ => cases h

theorem order?_eq_finish {b : Broker} {op : Op} {x : String} {id : Identity} {o : Outcome}
    (h : b.order? op = some (.finish x id o)) : ∃ now, op = .request now (.finish x id o) := by
  cases op with
  | request now q =>
    simp only [order?] at h
    split at h
    · cases q with
      | finish y id' o' =>
        obtain ⟨rfl, rfl, rfl⟩ := Coordinator.Op.finish.inj (Option.some.inj h)
        exact ⟨now, rfl⟩
      | enroll y id' ps' =>
        simp only [orderOf] at h
        split at h <;> cases h
      | append y id' p rs =>
        simp only [orderOf] at h
        split at h <;> cases h
      | _ => cases h
    · cases h
  | _ => cases h

/-- A transaction that is under way afterwards was so before, or was started by
enrolling under its identity. -/
theorem underWay_act {b : Broker} (h : b.coordinator.Sound) {op : Op} {x : String} {id : Identity}
    (hw : (b.act op).coordinator.UnderWay x id) :
    b.coordinator.UnderWay x id ∨ ∃ now ps, op = .request now (.enroll x id ps) := by
  rw [act_coordinator] at hw
  cases ho : b.order? op with
  | none =>
    rw [ho] at hw
    exact Or.inl hw
  | some o =>
    rw [ho] at hw
    refine (Coordinator.underWay_act h hw).imp (fun hu => hu) fun ⟨now, ps, he⟩ => ?_
    exact ⟨now, ps, order?_eq_enroll (he ▸ ho)⟩

/-- A transaction that stays under way keeps its partitions. -/
theorem partitions_act {b : Broker} (h : b.coordinator.Sound) {op : Op} {x : String}
    {t : Transaction} (hd : b.coordinator.describe x = some t) (hs : t.stage = .ongoing)
    (hw : (b.act op).coordinator.UnderWay x t.identity) :
    ∃ t', (b.act op).coordinator.describe x = some t' ∧ t'.stage = .ongoing ∧
      t'.identity = t.identity ∧ ∀ p ∈ t.partitions, p ∈ t'.partitions := by
  rw [act_coordinator] at hw ⊢
  cases ho : b.order? op with
  | none => exact ⟨t, hd, hs, rfl, fun _ hp => hp⟩
  | some o =>
    rw [ho] at hw
    exact Coordinator.partitions_act h hd hs hw

/-- No operation ends one transaction of a transactional id and starts another. -/
theorem underWay_identity {b : Broker} (h : b.coordinator.Sound) {op : Op} {x : String}
    {id id' : Identity} (hw : b.coordinator.UnderWay x id)
    (hw' : (b.act op).coordinator.UnderWay x id') : id' = id := by
  rw [act_coordinator] at hw'
  cases ho : b.order? op with
  | none =>
    rw [ho] at hw'
    obtain ⟨t, hd, -, rfl⟩ := hw
    exact (((Coordinator.underWay_iff hd id').mp hw').2).symm
  | some o =>
    rw [ho] at hw'
    exact Coordinator.underWay_identity h hw hw'

end Broker
end FencedLog
