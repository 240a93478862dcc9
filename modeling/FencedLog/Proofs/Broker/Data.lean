/-
# The data entries of a broker

A request adds data entries to a partition only if it is an append to it that
the broker carries out: then they are its records, at consecutive offsets from
the one that the broker answers with (`data_append`). An entry stays at its
offset until its topic is deleted (`entryAt_act`).

Key definitions: `Log.data`, `Broker.data`, `Broker.entryAt`.
Key theorems: `Broker.data_request`, `Broker.data_append`,
`Broker.entryAt_act`, `Broker.entryAt_append`.
-/
import FencedLog.Proofs.Broker.Last

namespace FencedLog

namespace Log

/-- The entries that are records. -/
def data (log : Log) : List Entry := log.entries.filter (·.visible?.isSome)

theorem data_append (log : Log) (producer : Option Int) (records : List Record) :
    (log.append producer records).data = log.data ++ entriesFrom log.next producer records := by
  have hall : ∀ (rs : List Record) (offset : Nat),
      (entriesFrom offset producer rs).filter (·.visible?.isSome) = entriesFrom offset producer rs := by
    intro rs
    induction rs with
    | nil => exact fun _ => rfl
    | cons r rs ih => exact fun offset => congrArg (_ :: ·) (ih (offset + 1))
  rw [data, append, List.filter_append, hall]
  rfl

/-- Markers are no data. -/
theorem data_extend_markers (log : Log) {items : List Item}
    (h : ∀ item ∈ items, ∃ producer o, item = .marker producer o) :
    (log.extend items).data = log.data := by
  have hnone : ∀ (xs : List Item) (offset : Nat), (∀ item ∈ xs, ∃ producer o, item = .marker producer o) →
      (entriesOf offset xs).filter (·.visible?.isSome) = [] := by
    intro xs
    induction xs with
    | nil => exact fun _ _ => rfl
    | cons x xs ih =>
      intro offset hx
      obtain ⟨producer, o, rfl⟩ := hx x List.mem_cons_self
      exact ih (offset + 1) fun item hi => hx item (List.mem_cons_of_mem _ hi)
  rw [data, extend, List.filter_append, hnone items _ h, List.append_nil]
  rfl

end Log

namespace Broker

/-- The data entries of a partition. -/
def data (b : Broker) (p : TopicPartition) : List Entry := (b.log? p).elim [] Log.data

/-- The entry of a partition that has this place. -/
def entryAt (b : Broker) (p : TopicPartition) (i : Nat) : Option Entry :=
  (b.log? p).bind (·.entries[i]?)

variable {b b' : Broker} {now : Span} {p : TopicPartition} {op : Op}

/-! ### What is added -/

theorem Adds.data_eq {items : List Log.Item} (h : Adds b b' p items)
    (hm : ∀ item ∈ items, ∃ producer o, item = .marker producer o) : b'.data p = b.data p := by
  unfold data
  cases hl : b.log? p with
  | some log =>
    rw [h.kept log hl]
    exact log.data_extend_markers hm
  | none =>
    cases hl' : b'.log? p with
    | none => rfl
    | some log' =>
      rw [h.fresh log' hl hl']
      rfl

/-- Who adds no records adds no data. -/
theorem data_of_records {q : Request} (h : b.records (.request now q) p = []) :
    (b.handle now q).1.data p = b.data p := by
  refine (adds_request q).data_eq fun item hi => ?_
  rw [posts_items, h, List.map_nil, List.nil_append] at hi
  obtain ⟨closing, -, hc⟩ := List.mem_flatMap.mp hi
  obtain ⟨_, -, rfl⟩ := List.mem_map.mp hc
  exact ⟨_, _, rfl⟩

/-- Only an append adds data. -/
theorem data_request {q : Request} (h : ∀ x id p rs, q ≠ .append x id p rs) :
    (b.handle now q).1.data p = b.data p := by
  apply data_of_records
  cases q with
  | append x id q rs => exact absurd rfl (h x id q rs)
  | _ => rfl

/-- An append that is refused adds nothing. -/
theorem data_refused {x : String} {id : Identity} {q : TopicPartition} {rs : List Record}
    {e : BrokerError} (h : (b.handle now (.append x id q rs)).2 = .error e) :
    (b.handle now (.append x id q rs)).1.data p = b.data p := by
  apply data_of_records
  rw [records, h]
  exact if_neg fun hok => Bool.false_ne_true hok.2

/-- **An append adds its records to its partition**, from the offset on that the
broker answers with. -/
theorem data_append {x : String} {id : Identity} {q : TopicPartition} {rs : List Record}
    {base : Nat} (h : (b.handle now (.append x id q rs)).2 = .ok (.appended base)) :
    (b.handle now (.append x id q rs)).1.data p =
      b.data p ++ if q = p then Log.entriesFrom base (some id.producer) rs else [] := by
  by_cases hq : q = p
  · subst hq
    obtain ⟨t, log, -, -, -, -, hl, hbase, hl'⟩ := append_ok h
    obtain rfl := Reply.appended.inj hbase
    have hnow : (b.handle now (.append x id q rs)).1.log? q = _ := hl'
    rw [data, data, hl, hnow, if_pos rfl, ← Log.append_eq_extend]
    exact log.data_append _ _
  · rw [if_neg hq, List.append_nil]
    apply data_of_records
    exact if_neg fun hok => hq hok.1

/-! ### What stays -/

theorem entryAt_of_log {log : Log} (h : b.log? p = some log) (i : Nat) :
    b.entryAt p i = log.entries[i]? := by
  rw [entryAt, h]
  rfl

/-- **An entry stays**, unless its topic is deleted. -/
theorem entryAt_act {i : Nat} {e : Entry} (h : b.entryAt p i = some e)
    (hd : op ≠ .deleteTopic p.topic) : (b.act op).entryAt p i = some e := by
  obtain ⟨log, hl, he⟩ := Option.bind_eq_some_iff.mp h
  have hlt : i < log.entries.length := (List.getElem?_eq_some_iff.mp he).1
  rw [entryAt_of_log (act_log hl hd)]
  exact (List.getElem?_append_left hlt).trans he

/-- What is appended is at the offset that the broker has answered with, and
every entry was before it. -/
theorem entryAt_append (hdense : ∀ log, b.log? p = some log → log.Dense) {x : String}
    {id : Identity} {rs : List Record} {base : Nat}
    (h : (b.handle now (.append x id p rs)).2 = .ok (.appended base)) :
    (∀ j r, rs[j]? = some r → (b.handle now (.append x id p rs)).1.entryAt p (base + j) =
      some (.data (base + j) (some id.producer) r)) ∧
    ∀ i e, b.entryAt p i = some e → i < base := by
  obtain ⟨t, log, -, -, -, -, hl, hbase, hl'⟩ := append_ok h
  obtain rfl := Reply.appended.inj hbase
  have hnext : log.next = log.entries.length := (hdense log hl).next_eq
  refine ⟨fun j r hj => ?_, fun i e he => ?_⟩
  · have hnow : (b.handle now (.append x id p rs)).1.log? p = _ := hl'
    have hle : log.entries.length ≤ log.next + j := by omega
    rw [entryAt_of_log hnow, Log.extend, List.getElem?_append_right hle, Log.entriesOf_getElem?]
    have hindex : log.next + j - log.entries.length = j := by omega
    rw [hindex, List.getElem?_map, hj]
    rfl
  · rw [entryAt_of_log hl] at he
    have hlt := (List.getElem?_eq_some_iff.mp he).1
    omega

end Broker
end FencedLog
