/-
# The entries of a transaction

An entry stays where it is as long as its topic is not deleted, and the
entries of a transaction come from appends under the transaction's
identity: each append adds its records, in order, at the end of the log.

Key definitions: `Place`, `Chronicle.Has`, `Chronicle.Decided`.
Key theorems: `Chronicle.has_act`, `Chronicle.has_of_act`,
`Chronicle.has_append`, `Chronicle.Has.decided`.
-/
import FencedLog.Proofs.Broker.Last

namespace FencedLog

/-- A record at an offset of a partition. -/
abbrev Place := TopicPartition × Nat × Record

namespace Broker

variable {b : Broker} {op : Op} {p : TopicPartition} {j : Nat} {r : Record} {y : Option String}

/-- A transactional record that an operation adds is one of those of an append
that the broker carries out. -/
theorem append_of_records {producer : Int}
    (h : (b.records op p)[j]? = some (.record (some producer) r, y)) :
    ∃ now x id rs reply, op = .request now (.append x id p rs) ∧
      (b.handle now (.append x id p rs)).2 = .ok reply ∧ rs[j]? = some r ∧
      producer = id.producer ∧ y = some x := by
  cases op with
  | request now q =>
    cases q with
    | append x id q rs =>
      simp only [records] at h
      split at h
      · rename_i hc
        obtain ⟨rfl, hok⟩ := hc
        rw [List.getElem?_map, Option.map_eq_some_iff] at h
        obtain ⟨r', hr, he⟩ := h
        obtain ⟨hitem, rfl⟩ := Prod.mk.inj he
        obtain ⟨hp, rfl⟩ := Log.Item.record.inj hitem
        cases ha : (b.handle now (.append x id q rs)).2 with
        | error e =>
          rw [ha] at hok
          cases hok
        | ok reply => exact ⟨now, x, id, rs, reply, rfl, ha, hr, (Option.some.inj hp).symm, rfl⟩
      · simp at h
    | _ => simp [records] at h
  | appendPlain q rs =>
    simp only [records] at h
    split at h
    · rw [List.getElem?_map, Option.map_eq_some_iff] at h
      obtain ⟨r', -, he⟩ := h
      cases (Log.Item.record.inj (Prod.mk.inj he).1).1
    · simp at h
  | _ => simp [records] at h

/-- Among the posts of an operation the records come first. -/
theorem records_of_posts {producer : Option Int}
    (h : (b.posts op p)[j]? = some (.record producer r, y)) :
    (b.records op p)[j]? = some (.record producer r, y) := by
  by_cases hj : j < (b.records op p).length
  · rwa [posts, List.getElem?_append_left hj] at h
  · rw [posts, List.getElem?_append_right (by omega)] at h
    obtain ⟨closing, -, hm⟩ := List.mem_flatMap.mp (List.mem_of_getElem? h)
    obtain ⟨item, hi, he⟩ := List.mem_map.mp hm
    obtain ⟨q, -, hq⟩ := List.mem_map.mp hi
    cases hq.trans (Prod.mk.inj he).1

end Broker

namespace Chronicle

variable {c : Chronicle} {op : Broker.Op} {T : Txn} {x : Place}

/-- The log has the record at this offset, and it is one of the transaction. -/
def Has (c : Chronicle) (T : Txn) (x : Place) : Prop :=
  ∃ log, c.broker.log? x.1 = some log ∧
    log.entries[x.2.1]? = some (.data x.2.1 (some T.identity.producer) x.2.2) ∧
    c.tag x.1 x.2.1 = some T

/-- The log has decided the record at this offset. -/
def Decided (c : Chronicle) (x : Place) (o : Outcome) : Prop :=
  ∃ log, c.broker.log? x.1 = some log ∧ log.fates[x.2.1]? = some (some o)

/-- An entry of a transaction is a row with its tag. -/
theorem has_iff (h : c.Accounted) : c.Has T x ↔ ∃ log, c.broker.log? x.1 = some log ∧
    (c.rows x.1 log)[x.2.1]? = some (.record (some T.identity.producer) x.2.2, some T) := by
  refine exists_congr fun log => and_congr_right fun hl => ⟨fun ⟨he, ht⟩ => ?_, fun hrow => ?_⟩
  · obtain ⟨m, hrow, hm⟩ := rows_getElem? h hl (items_of_entries he)
    rw [ht] at hm
    rw [hrow, hm]
    rfl
  · have hitem : log.items[x.2.1]? = some (.record (some T.identity.producer) x.2.2) :=
      (List.getElem?_zip_eq_some.mp hrow).1
    have htag : (c.ledger.tags x.1)[x.2.1]? = some (some T) :=
      (List.getElem?_zip_eq_some.mp hrow).2
    refine ⟨?_, by rw [tag, htag]; rfl⟩
    rw [(h.dense x.1 log hl).entry, hitem]
    rfl

/-- An entry stays, unless its topic is deleted. -/
theorem has_act (h : c.Accounted) (hx : c.Has T x) (hd : op ≠ .deleteTopic x.1.topic) :
    (c.act op).Has T x := by
  obtain ⟨log, hl, hrow⟩ := (has_iff h).mp hx
  have hl' : (c.act op).broker.log? x.1 = _ := Broker.act_log hl hd
  refine (has_iff (accounted_act h op)).mpr ⟨_, hl', ?_⟩
  have hlt := (List.getElem?_eq_some_iff.mp hrow).1
  rw [rows_act h hl hl', List.getElem?_append_left hlt, hrow]

/-- A new entry of a transaction comes from an append under the transaction's
identity. -/
theorem has_of_act (h : c.Accounted) (hx : (c.act op).Has T x) : c.Has T x ∨
    ∃ now rs base j, op = .request now (.append T.txid T.identity x.1 rs) ∧
      (c.broker.handle now (.append T.txid T.identity x.1 rs)).2 = .ok (.appended base) ∧
      x.2.1 = base + j ∧ rs[j]? = some x.2.2 := by
  obtain ⟨log', hl', hrow⟩ := (has_iff (accounted_act h op)).mp hx
  cases hl : c.broker.log? x.1 with
  | none =>
    rw [Broker.act_log_none hl hl'] at hrow
    simp [rows, Log.empty, Log.items] at hrow
  | some log =>
    rw [rows_act h hl hl'] at hrow
    by_cases hlt : x.2.1 < (c.rows x.1 log).length
    · rw [List.getElem?_append_left hlt] at hrow
      exact Or.inl ((has_iff h).mpr ⟨log, hl, hrow⟩)
    · right
      rw [List.getElem?_append_right (by omega), added, List.getElem?_map,
        Option.map_eq_some_iff] at hrow
      obtain ⟨⟨item, y⟩, hpost, he⟩ := hrow
      obtain ⟨rfl, hy⟩ := Prod.mk.inj he
      obtain ⟨now, z, id, rs, reply, rfl, hok, hr, hp, rfl⟩ :=
        Broker.append_of_records (Broker.records_of_posts hpost)
      -- the append was carried out in the transaction that is open
      obtain ⟨U, ho, -, rfl, rfl, -⟩ := append_ok hok
      obtain rfl : U = T := Option.some.inj (ho.symm.trans hy)
      obtain ⟨t, log₁, -, -, -, -, hl₁, rfl, -⟩ := Broker.append_ok hok
      obtain rfl : log = log₁ := Option.some.inj (hl.symm.trans hl₁)
      refine ⟨now, rs, log.next, x.2.1 - (c.rows x.1 log).length, rfl, hok, ?_, hr⟩
      have hnext := (h.dense x.1 log hl).next_eq
      rw [length_rows h hl, Log.length_items] at hlt ⊢
      omega

/-- An append that is carried out adds its records from `base` on, and
everything in the log was before. -/
theorem has_append (h : c.Accounted) {now : Span} {p : TopicPartition} {rs : List Record}
    {base : Nat} (ho : c.Open T)
    (hok : (c.broker.handle now (.append T.txid T.identity p rs)).2 = .ok (.appended base)) :
    (∀ j r, rs[j]? = some r →
      (c.act (.request now (.append T.txid T.identity p rs))).Has T (p, base + j, r)) ∧
    ∀ U i r, c.Has U (p, i, r) → i < base := by
  obtain ⟨t, log, -, -, -, -, hl, hr, -⟩ := Broker.append_ok hok
  obtain rfl := Reply.appended.inj hr
  have hnext := (h.dense p log hl).next_eq
  refine ⟨fun j r hj => ?_, fun U i r ⟨log', hl', he, _⟩ => ?_⟩
  · have hd : Broker.Op.request now (.append T.txid T.identity p rs) ≠ .deleteTopic p.topic :=
      by simp
    have hl' : (c.act (.request now (.append T.txid T.identity p rs))).broker.log? p = _ :=
      Broker.act_log hl hd
    refine (has_iff (accounted_act h _)).mpr ⟨_, hl', ?_⟩
    have hrecords : c.broker.records (.request now (.append T.txid T.identity p rs)) p =
        rs.map fun r => (.record (some T.identity.producer) r, some T.txid) := by
      rw [Broker.records, hok]
      exact if_pos ⟨rfl, rfl⟩
    have hclosings := Broker.closings_request_eq_nil c.broker now
      (Or.inr (Or.inl ⟨T.txid, T.identity, p, rs, rfl⟩))
    have hlen : (c.rows p log).length = log.next := by
      rw [length_rows h hl, Log.length_items, hnext]
    have hcur : c.ledger.current c.broker.coordinator T.txid = some T := ho
    rw [rows_act h hl hl', List.getElem?_append_right (by rw [hlen]; exact Nat.le_add_right _ _),
      hlen, added, Broker.posts, hrecords, hclosings]
    simp [hj, hcur]
  · obtain rfl : log = log' := Option.some.inj (hl.symm.trans hl')
    rw [hnext]
    exact (List.getElem?_eq_some_iff.mp he).1

/-- A transaction with an entry has been started. -/
theorem Has.begun (hx : c.Has T x) (h : c.Accounted) : c.Begun T := by
  obtain ⟨log, hl, he, ht⟩ := hx
  obtain ⟨U, hU, -, hset, -⟩ := h.record hl he
  obtain rfl := Option.some.inj (ht.symm.trans hU)
  cases hv : verdict T.identity.producer ((c.rows x.1 log).drop (x.2.1 + 1)) with
  | none =>
    rw [hv] at hset
    exact Or.inl hset.1
  | some om =>
    rw [hv] at hset
    exact Or.inr ⟨om.1, hset.2⟩

/-- An entry is decided as its transaction has ended. -/
theorem Has.decided (hx : c.Has T x) (h : c.Accounted) {o : Outcome}
    (ho : c.ledger.ended T = some o) : c.Decided x o := by
  obtain ⟨log, hl, he, ht⟩ := hx
  obtain ⟨U, hU, -, -, hfate⟩ := h.atomic.fate _ _ _ _ _ _ hl he
  obtain rfl := Option.some.inj (ht.symm.trans hU)
  exact ⟨log, hl, (hfate o).mpr ho⟩

end Chronicle
end FencedLog
