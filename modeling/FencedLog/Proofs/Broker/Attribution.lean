/-
# The fate of an entry is the end of its transaction

The log decides a record by the next marker of its producer, and knows
nothing of transactions. In every run of the broker that marker is the one of
the record's own transaction (`Atomic`): the records of one transaction are
undecided while it is open, and then decided together, as it ended.

The invariant (`Accounted`) follows each transactional record: until its
marker comes, its transaction is open with the partition enrolled, so the
operation that ends the transaction posts the marker; and no other transaction
has the same producer while it is open.

Key definitions: `Chronicle.verdict`, `Chronicle.rows`, `Chronicle.Settles`,
`Chronicle.Accounted`, `Chronicle.Atomic`.
Key theorems: `Chronicle.settles_act`, `Chronicle.accounted_run`,
`Chronicle.atomic_run`.
-/
import FencedLog.Proofs.Broker.Ledger

namespace FencedLog
namespace Chronicle

/-! ### Verdicts -/

/-- An item of a log with its transaction. -/
abbrev Row := Log.Item × Option Txn

/-- The first marker of a producer: the outcome, and the transaction it ends. -/
def verdict (producer : Int) : List Row → Option (Outcome × Option Txn)
  | [] => none
  | (.marker q o, m) :: rest => if q = producer then some (o, m) else verdict producer rest
  | (.record .., _) :: rest => verdict producer rest

variable {producer : Int}

theorem verdict_append (xs ys : List Row) :
    verdict producer (xs ++ ys) = (verdict producer xs).or (verdict producer ys) := by
  induction xs with
  | nil => rfl
  | cons row xs ih =>
    obtain ⟨item, m⟩ := row
    cases item with
    | record => exact ih
    | marker q o =>
      rw [List.cons_append, verdict, verdict]
      split
      · rfl
      · exact ih

/-- The decision of a log is the outcome of the verdict. -/
theorem decision_eq_verdict (rows : List Row) :
    Log.decision producer (rows.map (·.1)) = (verdict producer rows).map (·.1) := by
  induction rows with
  | nil => rfl
  | cons row rows ih =>
    obtain ⟨item, m⟩ := row
    cases item with
    | record => exact ih
    | marker q o =>
      rw [List.map_cons, Log.decision, verdict]
      split
      · rfl
      · exact ih

theorem mem_of_verdict {o : Outcome} {m : Option Txn} : ∀ {rows : List Row},
    verdict producer rows = some (o, m) → (.marker producer o, m) ∈ rows
  | (.marker q o', m') :: rows, h => by
    rw [verdict] at h
    split at h
    · rename_i hq
      obtain ⟨rfl, rfl⟩ := Prod.mk.inj (Option.some.inj h)
      rw [hq]
      exact List.mem_cons_self
    · exact List.mem_cons_of_mem _ (mem_of_verdict h)
  | (.record .., _) :: _, h => List.mem_cons_of_mem _ (mem_of_verdict h)

theorem verdict_ne_none {o : Outcome} {m : Option Txn} : ∀ {rows : List Row},
    (.marker producer o, m) ∈ rows → verdict producer rows ≠ none
  | (.marker q o', m') :: rows, h => by
    rw [verdict]
    split
    · exact Option.some_ne_none _
    · rename_i hq
      rcases List.mem_cons.mp h with he | h
      · exact absurd (Log.Item.marker.inj (Prod.mk.inj he).1).1.symm hq
      · exact verdict_ne_none h
  | (.record .., _) :: rows, h => by
    rcases List.mem_cons.mp h with he | h
    · cases he
    · have ih : verdict producer rows ≠ none := verdict_ne_none h
      exact ih

/-- The first marker of a producer gives the verdict. -/
theorem verdict_of_first {o : Outcome} {m : Option Txn} : ∀ {rows : List Row} {j : Nat},
    rows[j]? = some (.marker producer o, m) →
    (∀ k < j, ∀ o' m', rows[k]? ≠ some (.marker producer o', m')) →
      verdict producer rows = some (o, m)
  | [], _, h, _ => by simp at h
  | (.marker q o', m') :: rows, 0, h, _ => by
    rw [List.getElem?_cons_zero, Option.some.injEq] at h
    rw [h, verdict, if_pos rfl]
  | (.record .., _) :: rows, 0, h, _ => by simp at h
  | row :: rows, j + 1, h, hfirst => by
    have hrest : verdict producer rows = some (o, m) := verdict_of_first (j := j) (by simpa using h)
      fun k hk o' m' he => hfirst (k + 1) (by omega) o' m' (by simpa using he)
    have hrow := hfirst 0 (by omega)
    obtain ⟨item, m'⟩ := row
    cases item with
    | record => exact hrest
    | marker q o' =>
      rw [verdict, if_neg fun hq => hrow o' m' (by rw [hq]; rfl)]
      exact hrest

/-! ### Rows -/

/-- The items of a log with their transactions. -/
def rows (c : Chronicle) (p : TopicPartition) (log : Log) : List Row :=
  log.items.zip (c.ledger.tags p)

/-- The rows that an operation adds to a log. -/
def added (c : Chronicle) (op : Broker.Op) (p : TopicPartition) : List Row :=
  (c.broker.posts op p).map fun post =>
    (post.1, post.2.bind (c.ledger.current c.broker.coordinator))

/-- The transaction of an entry, if it has one. -/
def tag (c : Chronicle) (p : TopicPartition) (i : Nat) : Option Txn :=
  (c.ledger.tags p)[i]?.join

variable {c : Chronicle} {op : Broker.Op} {p : TopicPartition} {log : Log}

/-- A partition is enrolled in a transaction. -/
def Enrolled (c : Chronicle) (T : Txn) (p : TopicPartition) : Prop :=
  ∃ t, c.broker.coordinator.describe T.txid = some t ∧ p ∈ t.partitions

theorem current_of_describe {x : String} {t : Transaction}
    (hd : c.broker.coordinator.describe x = some t) (hs : t.stage = .ongoing) :
    ∃ T, c.ledger.current c.broker.coordinator x = some T ∧ T.txid = x ∧
      T.identity = t.identity ∧ c.Open T := by
  have hT : c.ledger.current c.broker.coordinator x = some ⟨x, t.identity, c.ledger.starts x⟩ :=
    Ledger.current_eq_some_iff.mpr ⟨⟨t, hd, hs, rfl⟩, rfl, rfl⟩
  exact ⟨_, hT, rfl, rfl, hT⟩

/-- A marker is posted for a transaction that the operation ends. -/
theorem marker_of_mem_added (hs : c.broker.coordinator.Sound) {q : Int} {o : Outcome}
    {m : Option Txn} (h : (.marker q o, m) ∈ c.added op p) :
    ∃ T, m = some T ∧ T.identity.producer = q ∧ c.Open T ∧ ¬ (c.act op).Open T ∧
      o = op.outcome := by
  obtain ⟨⟨item, x⟩, hpost, he⟩ := List.mem_map.mp h
  obtain ⟨rfl, rfl⟩ := Prod.mk.inj he
  rcases List.mem_append.mp hpost with hr | hm
  · rcases Broker.of_mem_records hr with ⟨r, hr, -⟩ | ⟨t, y, r, -, -, -, -, hr⟩ <;> cases hr
  · obtain ⟨closing, hc, hm⟩ := List.mem_flatMap.mp hm
    obtain ⟨item, hi, he⟩ := List.mem_map.mp hm
    obtain ⟨hitem, rfl⟩ := Prod.mk.inj he
    obtain ⟨t, hd, hst, hcl, hw⟩ := (Broker.mem_closings hs).mp hc
    obtain ⟨T, hT, hx, hid, ho⟩ := current_of_describe hd hst
    obtain ⟨q', -, hq'⟩ := List.mem_map.mp hi
    rw [hitem, Log.Item.marker.injEq] at hq'
    refine ⟨T, hT, ?_, ho, fun ho' => hw ?_, ?_⟩
    · rw [hid, ← hq'.1, hcl]
      rfl
    · rw [← hx, ← hid]
      exact (open_iff.mp ho').1
    · rw [← hq'.2, hcl]
      rfl

/-- The operation that ends a transaction posts its marker on every enrolled
partition. -/
theorem marker_mem_added (hs : c.broker.coordinator.Sound) {T : Txn} (ho : c.Open T)
    (he : c.Enrolled T p) (hno : ¬ (c.act op).Open T) :
    (.marker T.identity.producer op.outcome, some T) ∈ c.added op p := by
  obtain ⟨t, hd, hp⟩ := he
  obtain ⟨hst, hid⟩ := (Coordinator.underWay_iff hd _).mp (open_iff.mp ho).1
  have hx := hs.named T.txid t hd
  have hw : ¬ (c.broker.act op).coordinator.UnderWay t.txid t.identity := fun hw =>
    hno (open_act_of_open ho (by rw [← hx, ← hid]; exact hw))
  have hc : (t.complete op.outcome).2 ∈ c.broker.closings op :=
    (Broker.mem_closings hs).mpr ⟨t, (congrArg _ hx).trans hd, hst, rfl, hw⟩
  refine List.mem_map.mpr ⟨(.marker T.identity.producer op.outcome, some T.txid),
    List.mem_append_right _ (List.mem_flatMap.mpr ⟨_, hc, List.mem_map.mpr
      ⟨.marker T.identity.producer op.outcome, List.mem_map.mpr ⟨p, ?_, ?_⟩, ?_⟩⟩), ?_⟩
  · exact List.mem_filter.mpr ⟨hp, by simp⟩
  · rw [← hid]
    rfl
  · rw [← hx]
    rfl
  · exact Prod.ext rfl ho

/-! ### The invariant -/

/-- A verdict on a record of transaction `T`: without one the transaction is
open and will post its marker here; else it is that of `T` itself. -/
def Settles (c : Chronicle) (p : TopicPartition) (T : Txn) : Option (Outcome × Option Txn) → Prop
  | none => c.Open T ∧ c.Enrolled T p
  | some (o, m) => m = some T ∧ c.ledger.ended T = some o

structure Accounted (c : Chronicle) : Prop where
  coordinator : c.broker.coordinator.Sound
  kept : c.Kept
  dense : ∀ p log, c.broker.log? p = some log → log.Dense
  tagged : ∀ p log, c.broker.log? p = some log → (c.ledger.tags p).length = log.items.length
  settled : ∀ p log, c.broker.log? p = some log → ∀ i producer r m,
    (c.rows p log)[i]? = some (.record (some producer) r, m) →
      ∃ T, m = some T ∧ T.identity.producer = producer ∧
        c.Settles p T (verdict producer ((c.rows p log).drop (i + 1)))

theorem accounted_start (config : BrokerConfig) : (start config).Accounted where
  coordinator := Coordinator.sound_start _
  kept := kept_start config
  dense := fun p log h => by simp [start, Broker.start, Broker.log?] at h
  tagged := fun p log h => by simp [start, Broker.start, Broker.log?] at h
  settled := fun p log h => by simp [start, Broker.start, Broker.log?] at h

/-- Two open transactions of one producer are the same one. -/
theorem Open.eq_of_producer (hs : c.broker.coordinator.Sound) {T U : Txn} (hT : c.Open T)
    (hU : c.Open U) (he : T.identity.producer = U.identity.producer) : T = U := by
  obtain ⟨⟨t, hd, -, hid⟩, -⟩ := open_iff.mp hT
  obtain ⟨⟨u, hd', -, hid'⟩, -⟩ := open_iff.mp hU
  exact hT.unique hU (hs.apart _ _ t u hd hd' (by rw [hid, hid', he]))

/-- An operation decides the records of the transactions it ends, and no
others. -/
theorem settles_act (hs : c.broker.coordinator.Sound) (hk : c.Kept) {T : Txn}
    {v : Option (Outcome × Option Txn)} (h : c.Settles p T v) (op : Broker.Op) :
    (c.act op).Settles p T (v.or (verdict T.identity.producer (c.added op p))) := by
  cases v with
  | some om => exact ⟨h.1, ended_stable hk h.2 op⟩
  | none =>
    obtain ⟨ho, he⟩ := h
    rw [Option.none_or]
    -- a marker of the producer can only be one that ends `T`
    have own : ∀ o m, (.marker T.identity.producer o, m) ∈ c.added op p →
        m = some T ∧ o = op.outcome ∧ ¬ (c.act op).Open T := by
      intro o m hm
      obtain ⟨U, rfl, hq, hU, hU', rfl⟩ := marker_of_mem_added hs hm
      obtain rfl := ho.eq_of_producer hs hU hq.symm
      exact ⟨rfl, rfl, hU'⟩
    by_cases ho' : (c.act op).Open T
    · have hnone : verdict T.identity.producer (c.added op p) = none := by
        cases hv : verdict T.identity.producer (c.added op p) with
        | none => rfl
        | some om => exact absurd ho' (own om.1 om.2 (mem_of_verdict hv)).2.2
      rw [hnone]
      obtain ⟨t, hd, hp⟩ := he
      obtain ⟨hst, hid⟩ := (Coordinator.underWay_iff hd _).mp (open_iff.mp ho).1
      have hw : (c.broker.act op).coordinator.UnderWay T.txid t.identity :=
        hid ▸ (open_iff.mp ho').1
      obtain ⟨t', hd', -, -, hps⟩ := Broker.partitions_act hs hd hst hw
      exact ⟨ho', t', hd', hps p hp⟩
    · obtain ⟨om, hv⟩ :=
        Option.ne_none_iff_exists'.mp (verdict_ne_none (marker_mem_added hs ho he ho'))
      obtain ⟨hm, hout, -⟩ := own om.1 om.2 (mem_of_verdict hv)
      rw [hv]
      refine ⟨hm, ?_⟩
      rw [ended_act, if_pos ⟨ho, ho'⟩, hout]

theorem length_rows (h : c.Accounted) (hl : c.broker.log? p = some log) :
    (c.rows p log).length = log.items.length := by
  simp [rows, h.tagged p log hl]

theorem log?_act (hl : c.broker.log? p = some log) {log' : Log}
    (hl' : (c.act op).broker.log? p = some log') :
    log' = log.extend ((c.broker.posts op p).map (·.1)) := by
  have hd : op ≠ .deleteTopic p.topic := by
    rintro rfl
    rw [show (c.act _).broker.log? p = none from Broker.log?_deleteTopic c.broker p] at hl'
    cases hl'
  exact (Option.some.inj ((Broker.act_log hl hd).symm.trans hl')).symm

theorem tags_act (hl : c.broker.log? p = some log) {log' : Log}
    (hl' : (c.act op).broker.log? p = some log') :
    (c.act op).ledger.tags p = c.ledger.tags p ++ (c.added op p).map (·.2) := by
  have hl'' : (c.broker.act op).log? p = some log' := hl'
  simp [act, Ledger.advance, hl, hl'', added, Function.comp_def]

/-- An operation adds its rows at the end. -/
theorem rows_act (h : c.Accounted) (hl : c.broker.log? p = some log) {log' : Log}
    (hl' : (c.act op).broker.log? p = some log') :
    (c.act op).rows p log' = c.rows p log ++ c.added op p := by
  unfold rows
  rw [log?_act hl hl', tags_act hl hl', Log.items_extend, List.zip_append (h.tagged p log hl).symm]
  congr 1
  simp only [added, List.map_map]
  exact (List.zip_map' ..)

/-- A record is added in the open transaction of the identity that its
transactional id has, on an enrolled partition, and no marker comes with it. -/
theorem record_of_mem_added {q : Int} {r : Record} {m : Option Txn}
    (h : (.record (some q) r, m) ∈ c.added op p) : ∃ T, m = some T ∧ T.identity.producer = q ∧
      (c.act op).Open T ∧ (c.act op).Enrolled T p ∧
      ∀ row ∈ c.added op p, ∀ q o, row.1 ≠ .marker q o := by
  obtain ⟨⟨item, x⟩, hpost, he⟩ := List.mem_map.mp h
  obtain ⟨rfl, rfl⟩ := Prod.mk.inj he
  rcases List.mem_append.mp hpost with hr | hm
  · obtain ⟨hc, hsame⟩ := Broker.describe_of_records (List.ne_nil_of_mem hr)
    have hdesc : ∀ x, (c.act op).broker.coordinator.describe x = c.broker.coordinator.describe x :=
      hsame
    have hmark : ∀ row ∈ c.added op p, ∀ q o, row.1 ≠ .marker q o := by
      intro row hrow q o heq
      obtain ⟨⟨item, y⟩, hpost', rfl⟩ := List.mem_map.mp hrow
      rw [Broker.posts, hc, List.flatMap_nil, List.append_nil] at hpost'
      rcases Broker.of_mem_records hpost' with ⟨r, hr, -⟩ | ⟨t, y, r, -, -, -, -, hr⟩ <;>
        rw [hr] at heq <;> cases heq
    rcases Broker.of_mem_records hr with ⟨r, hitem, -⟩ | ⟨t, y, r', rfl, hd, hst, hp, hitem⟩
    · cases hitem
    · obtain ⟨T, hT, rfl, hid, ho⟩ := current_of_describe hd hst
      refine ⟨T, hT, ?_, open_act_of_open ho ?_, ⟨t, (hdesc _).trans hd, hp⟩, hmark⟩
      · rw [Log.Item.record.injEq, Option.some.injEq] at hitem
        rw [hitem.1, hid]
      · exact ⟨t, (hdesc _).trans hd, hst, hid.symm⟩
  · obtain ⟨closing, -, hm⟩ := List.mem_flatMap.mp hm
    obtain ⟨item, hi, he⟩ := List.mem_map.mp hm
    obtain ⟨hitem, -⟩ := Prod.mk.inj he
    obtain ⟨-, -, hq⟩ := List.mem_map.mp hi
    rw [hitem] at hq
    cases hq

theorem accounted_act (h : c.Accounted) (op : Broker.Op) : (c.act op).Accounted where
  coordinator := Broker.sound_act h.coordinator op
  kept := kept_act h.coordinator h.kept op
  dense := fun p log' hl' => by
    cases hl : c.broker.log? p with
    | none =>
      rw [Broker.act_log_none hl hl']
      exact Log.dense_empty
    | some log =>
      rw [log?_act hl hl']
      exact Log.dense_extend (h.dense p log hl) _
  tagged := fun p log' hl' => by
    cases hl : c.broker.log? p with
    | none =>
      rw [Broker.act_log_none hl hl']
      simp [act, Ledger.advance, hl, Log.empty, Log.items]
    | some log =>
      rw [tags_act hl hl', log?_act hl hl', Log.items_extend, List.length_append,
        List.length_append, h.tagged p log hl]
      simp [added]
  settled := fun p log' hl' i producer r m hi => by
    cases hl : c.broker.log? p with
    | none =>
      rw [Broker.act_log_none hl hl'] at hi
      simp [rows, Log.empty, Log.items] at hi
    | some log =>
      rw [rows_act h hl hl'] at hi ⊢
      by_cases hlt : i < (c.rows p log).length
      · -- an old record: its verdict stands, or is given now
        rw [List.getElem?_append_left hlt] at hi
        obtain ⟨T, hm, rfl, hset⟩ := h.settled p log hl i _ r m hi
        rw [List.drop_append_of_le_length (by omega), verdict_append]
        exact ⟨T, hm, rfl, settles_act h.coordinator h.kept hset op⟩
      · -- a new record: no marker comes with it
        rw [List.getElem?_append_right (by omega)] at hi
        obtain ⟨T, hm, hq, ho, he, hmark⟩ := record_of_mem_added (List.mem_of_getElem? hi)
        refine ⟨T, hm, hq, ?_⟩
        have hnone : verdict producer ((c.rows p log ++ c.added op p).drop (i + 1)) = none := by
          rw [List.drop_append, List.drop_of_length_le (by omega), List.nil_append]
          cases hv : verdict producer ((c.added op p).drop (i + 1 - (c.rows p log).length)) with
          | none => rfl
          | some om =>
            exact absurd rfl (hmark _ (List.mem_of_mem_drop (mem_of_verdict hv)) producer om.1)
        rw [hnone]
        exact ⟨ho, he⟩

theorem accounted_run (ops : List Broker.Op) {c : Chronicle} (h : c.Accounted) :
    (c.run ops).Accounted := by
  induction ops generalizing c with
  | nil => exact h
  | cons op ops ih => exact ih (accounted_act h op)

/-! ### Transactions are atomic -/

/-- The entries of transactions are decided transaction by transaction. -/
structure Atomic (c : Chronicle) : Prop where
  /-- A record is undecided exactly while the transaction it was written in is
  open, and else it is decided as that transaction ended. -/
  fate : ∀ p log i offset producer r, c.broker.log? p = some log →
    log.entries[i]? = some (.data offset (some producer) r) →
      ∃ T, c.tag p i = some T ∧ T.identity.producer = producer ∧
        (log.fates[i]? = some none ↔ c.Open T) ∧
        ∀ o, log.fates[i]? = some (some o) ↔ c.ledger.ended T = some o
  /-- The records of one transaction have one fate, whatever their partitions. -/
  together : ∀ p q log log' i j o o' pid pid' r r' T, c.broker.log? p = some log →
    c.broker.log? q = some log' → log.entries[i]? = some (.data o (some pid) r) →
    log'.entries[j]? = some (.data o' (some pid') r') → c.tag p i = some T →
    c.tag q j = some T → log.fates[i]? = log'.fates[j]?
  /-- The marker that decides a record is the one of the record's transaction. -/
  own : ∀ p log i j o o' pid r d, c.broker.log? p = some log →
    log.entries[i]? = some (.data o (some pid) r) →
    log.entries[j]? = some (.marker o' pid d) → i < j →
    (∀ k, i < k → k < j → ∀ o' d', log.entries[k]? ≠ some (.marker o' pid d')) →
      c.tag p j = c.tag p i

variable {i : Nat} {item : Log.Item}

theorem rows_getElem? (h : c.Accounted) (hl : c.broker.log? p = some log)
    (hi : log.items[i]? = some item) : ∃ m, (c.rows p log)[i]? = some (item, m) ∧ c.tag p i = m := by
  have hlt := (List.getElem?_eq_some_iff.mp hi).1
  rw [← h.tagged p log hl] at hlt
  refine ⟨(c.ledger.tags p)[i], ?_, ?_⟩
  · rw [rows, List.getElem?_zip_eq_some]
    exact ⟨hi, List.getElem?_eq_getElem hlt⟩
  · rw [tag, List.getElem?_eq_getElem hlt]
    rfl

theorem items_of_entries {e : Entry} (h : log.entries[i]? = some e) :
    log.items[i]? = some (.ofEntry e) := by
  rw [Log.items, List.getElem?_map, h]
  rfl

/-- A record's transaction, and the verdict that its fate is read from. -/
theorem Accounted.record (h : c.Accounted) (hl : c.broker.log? p = some log) {offset : Nat}
    {r : Record} (he : log.entries[i]? = some (.data offset (some producer) r)) :
    ∃ T, c.tag p i = some T ∧ T.identity.producer = producer ∧
      c.Settles p T (verdict producer ((c.rows p log).drop (i + 1))) ∧
      log.fates[i]? = some ((verdict producer ((c.rows p log).drop (i + 1))).map (·.1)) := by
  have hi := items_of_entries he
  obtain ⟨m, hrow, htag⟩ := rows_getElem? h hl hi
  obtain ⟨T, rfl, hq, hset⟩ := h.settled p log hl i _ _ _ hrow
  refine ⟨T, htag, hq, hset, ?_⟩
  rw [Log.fates_eq_decision hi, ← decision_eq_verdict, List.map_drop, rows,
    List.map_fst_zip (Nat.le_of_eq (h.tagged p log hl).symm)]

/-- What settles a record is what became of its transaction. -/
theorem settles_iff (hk : c.Kept) {T : Txn} {v : Option (Outcome × Option Txn)}
    (h : c.Settles p T v) : (v = none ↔ c.Open T) ∧
      ∀ o, v.map (·.1) = some o ↔ c.ledger.ended T = some o := by
  cases v with
  | none =>
    refine ⟨iff_of_true rfl h.1, fun o => iff_of_false (by simp) fun he => ?_⟩
    exact (hk T o he).2 h.1
  | some om =>
    obtain ⟨-, he⟩ := h
    refine ⟨iff_of_false (by simp) fun ho => (hk T _ he).2 ho, fun o => ?_⟩
    simp [he]

theorem Accounted.atomic (h : c.Accounted) : c.Atomic where
  fate := fun p log i offset producer r hl he => by
    obtain ⟨T, htag, hq, hset, hf⟩ := h.record hl he
    obtain ⟨hopen, hended⟩ := settles_iff h.kept hset
    refine ⟨T, htag, hq, ?_, fun o => ?_⟩
    · rw [hf, ← hopen]
      simp
    · rw [hf, ← hended, Option.some.injEq]
  together := fun p q log log' i j o o' pid pid' r r' T hl hl' he he' ht ht' => by
    obtain ⟨T₁, ht₁, -, hset, hf⟩ := h.record hl he
    obtain ⟨T₂, ht₂, -, hset', hf'⟩ := h.record hl' he'
    obtain rfl : T = T₁ := Option.some.inj (ht.symm.trans ht₁)
    obtain rfl : T = T₂ := Option.some.inj (ht'.symm.trans ht₂)
    rw [hf, hf', Option.some.injEq]
    exact Option.ext fun d => ((settles_iff h.kept hset).2 d).trans
      ((settles_iff h.kept hset').2 d).symm
  own := fun p log i j o o' pid r d hl he hm hij hfirst => by
    obtain ⟨T, htag, hq, hset, -⟩ := h.record hl he
    obtain ⟨m, hrow, htag'⟩ := rows_getElem? h hl (items_of_entries hm)
    -- the marker at `j` is the first one after the record, so the verdict is its
    have hv : verdict pid ((c.rows p log).drop (i + 1)) = some (d, m) := by
      refine verdict_of_first (j := j - (i + 1)) ?_ fun k hk o'' m' hk' => ?_
      · rw [List.getElem?_drop, show i + 1 + (j - (i + 1)) = j by omega, hrow]
        rfl
      · rw [List.getElem?_drop, rows, List.getElem?_zip_eq_some, Log.items, List.getElem?_map,
          Option.map_eq_some_iff] at hk'
        obtain ⟨⟨e, hke, hitem⟩, -⟩ := hk'
        cases e with
        | data => cases hitem
        | marker o₃ q d₃ =>
          obtain ⟨rfl, rfl⟩ := Log.Item.marker.inj hitem
          exact hfirst (i + 1 + k) (by omega) (by omega) _ _ hke
    rw [hv] at hset
    rw [htag, htag', hset.1]

/-- **In every run of the broker the fate of an entry is the end of its
transaction.** -/
theorem atomic_run (config : BrokerConfig) (ops : List Broker.Op) :
    ((start config).run ops).Atomic :=
  (accounted_run ops (accounted_start config)).atomic

end Chronicle
end FencedLog
