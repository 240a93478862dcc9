/-
# A transaction is committed once

A request to commit an open transaction puts one marker on each log of its
partitions, and changes no other log. Any further request to commit it is
agreed to and changes nothing, also after newer identities have been given out,
as long as the producer stays (`Upheld`). So each record of the transaction is
decided, by one marker (`Committed`).

Key definitions: `Entry.ends`, `Chronicle.Marked`, `Chronicle.Committed`,
`Chronicle.Upheld`.
Key theorems: `Chronicle.upheld_finish`, `Chronicle.Upheld.finish`,
`Chronicle.Upheld.init`, `Chronicle.Upheld.committed`.
-/
import Mathlib.Data.List.Nodup
import FencedLog.Proofs.Broker.Entries
import FencedLog.Proofs.Broker.Fencing
import FencedLog.Proofs.Coordinator.Repeat

namespace FencedLog

/-! ### Markers -/

/-- Whether an entry ends a transaction of the producer. -/
def Entry.ends (producer : Int) : Entry → Bool
  | .data .. => false
  | .marker _ q _ => q == producer

/-- Without a decision there is no marker. -/
theorem countP_ends {producer : Int} : ∀ {es : List Entry},
    Log.decision producer (es.map Log.Item.ofEntry) = none → es.countP (Entry.ends producer) = 0
  | [], _ => rfl
  | .data _ _ _ :: es, h => by
    have ih : es.countP (Entry.ends producer) = 0 := countP_ends h
    simpa [Entry.ends] using ih
  | .marker _ q o :: es, h => by
    rw [List.map_cons, Log.Item.ofEntry, Log.decision] at h
    split at h
    · cases h
    · rename_i hne
      have ih : es.countP (Entry.ends producer) = 0 := countP_ends h
      simpa [Entry.ends, hne] using ih

namespace Broker

variable {b : Broker} {x : String} {id : Identity} {o : Outcome}

/-- On each partition of an ordered set one marker is put. -/
theorem markersOf_ordered {closing : Closing} (h : TopicPartition.Ordered closing.partitions)
    (p : TopicPartition) : markersOf closing p =
      if p ∈ closing.partitions then [.marker closing.producer closing.outcome] else [] := by
  unfold markersOf
  rw [List.filter_eq, List.map_replicate]
  by_cases hp : p ∈ closing.partitions
  · have hone : closing.partitions.count p = 1 := List.count_eq_one_of_mem h.nodup hp
    rw [if_pos hp, hone]
    rfl
  · have hzero : closing.partitions.count p = 0 := List.count_eq_zero_of_not_mem hp
    rw [if_neg hp, hzero]
    rfl

/-! ### End requests -/

/-- A request for the end that is upheld changes nothing. -/
theorem finish_of_upholds (ha : b.available = true) (h : b.coordinator.Upholds x id o)
    (now : Span) : b.handle now (.finish x id o) = (b, .ok .finished) := by
  unfold handle
  rw [if_pos ha]
  simp only [finish, Coordinator.finish_of_upholds h]

/-- A request to end what is under way puts its markers on the logs. -/
theorem finish_of_ongoing (ha : b.available = true) (hl : b.coordinator.Listed) {t : Transaction}
    (hd : b.coordinator.describe x = some t) (hs : t.stage = .ongoing) (now : Span) (o : Outcome) :
    (b.handle now (.finish x t.identity o)).2 = .ok .finished ∧
      (b.handle now (.finish x t.identity o)).1.available = true ∧
      ∀ p, (b.handle now (.finish x t.identity o)).1.log? p = (b.log? p).map fun log =>
        if p ∈ t.partitions then log.mark t.identity.producer o else log := by
  obtain ⟨hok, -⟩ := Coordinator.finish_of_ongoing hd hs o
  generalize hf : b.coordinator.finish x t.identity o = r at hok
  obtain ⟨c, answer⟩ := r
  obtain rfl : answer = .ok (some (t.complete o).2) := hok
  let b' : Broker := { b with coordinator := c }
  have hhandle : b.handle now (.finish x t.identity o) =
      (b'.close (t.complete o).2, .ok .finished) := by
    unfold handle
    rw [if_pos ha]
    simp only [finish, hf, b']
  rw [hhandle]
  refine ⟨rfl, (same_close b' _).available.trans ha, fun p => ?_⟩
  have hclose : (b'.close (t.complete o).2).log? p = _ := log?_close b' (t.complete o).2 p
  have hsame : b'.log? p = b.log? p := log?_eq_of_topics rfl p
  have hordered : TopicPartition.Ordered (t.complete o).2.partitions := hl x t hd
  have hmarkers := markersOf_ordered hordered p
  rw [hclose, hsame, hmarkers]
  by_cases hp : p ∈ t.partitions
  · have hp' : p ∈ (t.complete o).2.partitions := hp
    simp only [if_pos hp, if_pos hp']
    rfl
  · have hp' : p ∉ (t.complete o).2.partitions := hp
    simp only [if_neg hp, if_neg hp', Log.extend_nil]

/-- An identity that is given out while nothing is ongoing changes no log. -/
theorem init_of_idle (ha : b.available = true) {t : Transaction}
    (hd : b.coordinator.describe x = some t) (hs : t.stage ≠ .ongoing) (now timeout : Span) :
    (b.handle now (.init x timeout)).1.topics = b.topics ∧
      (b.handle now (.init x timeout)).1.available = true := by
  rcases Coordinator.init_spec b.coordinator x timeout with ⟨hnone, -⟩ | ⟨t', hd', -, -, hr⟩
  · rw [hd] at hnone
    cases hnone
  · obtain rfl := Option.some.inj (hd.symm.trans hd')
    rw [if_neg hs] at hr
    unfold handle
    rw [if_pos ha]
    simp only [init]
    generalize b.coordinator.init x timeout = r at hr
    obtain ⟨c, id, closing⟩ := r
    obtain ⟨-, rfl⟩ := Prod.mk.inj hr
    exact ⟨rfl, ha⟩

end Broker

namespace Chronicle

variable {c₀ c : Chronicle} {T : Txn}

/-- The logs of a transaction's partitions have got its marker, and the others
are as they were. -/
structure Marked (c₀ c : Chronicle) (T : Txn) : Prop where
  marked : ∀ p log, c₀.Enrolled T p → c₀.broker.log? p = some log →
    c.broker.log? p = some (log.mark T.identity.producer .commit)
  others : ∀ p, ¬ c₀.Enrolled T p → c.broker.log? p = c₀.broker.log? p
  gone : ∀ p, c₀.broker.log? p = none → c.broker.log? p = none

/-- The transaction has been committed, and each of its records is decided, by
the one marker of its producer that follows. -/
structure Committed (c₀ c : Chronicle) (T : Txn) : Prop extends Marked c₀ c T where
  ended : c.ledger.ended T = some .commit
  decided : ∀ x, c₀.Has T x → c.Has T x ∧ c.Decided x .commit ∧ ∃ log,
    c.broker.log? x.1 = some log ∧
      (log.entries.drop (x.2.1 + 1)).countP (Entry.ends T.identity.producer) = 1

/-- The transaction has been committed, and the coordinator stands by it. -/
structure Upheld (c₀ c : Chronicle) (T : Txn) : Prop extends Marked c₀ c T where
  accounted : c.Accounted
  available : c.broker.available = true
  ended : c.ledger.ended T = some .commit
  upholds : c.broker.coordinator.Upholds T.txid T.identity .commit
  kept : ∀ x, c₀.Has T x → c.Has T x

/-- The coordinator lists each partition once, after any operations. -/
theorem listed_run (config : BrokerConfig) (ops : List Broker.Op) :
    ((start config).run ops).broker.coordinator.Listed := by
  rw [run_broker, Broker.run_coordinator]
  exact Coordinator.listed_run (Coordinator.sound_start _) (Coordinator.listed_start _) _

/-! ### Steps -/

/-- The entry of an open transaction. -/
theorem Open.ongoing (ho : c.Open T) : ∃ t, c.broker.coordinator.describe T.txid = some t ∧
    t.stage = .ongoing ∧ t.identity = T.identity := (open_iff.mp ho).1

/-- The first request to commit is carried out. -/
theorem upheld_finish (ha : c.Accounted) (hv : c.broker.available = true)
    (hl : c.broker.coordinator.Listed) (ho : c.Open T) (now : Span) :
    (c.broker.handle now (.finish T.txid T.identity .commit)).2 = .ok .finished ∧
      c.Upheld (c.act (.request now (.finish T.txid T.identity .commit))) T := by
  obtain ⟨t, hd, hs, hid⟩ := ho.ongoing
  obtain ⟨hok, hv', hlogs⟩ := Broker.finish_of_ongoing hv hl hd hs now .commit
  rw [hid] at hok hv' hlogs
  have hmem : ∀ p, c.Enrolled T p ↔ p ∈ t.partitions := fun p =>
    ⟨fun ⟨t', hd', hp⟩ => Option.some.inj (hd'.symm.trans hd) ▸ hp, fun hp => ⟨t, hd, hp⟩⟩
  refine ⟨hok, ⟨⟨fun p log hp hlog => ?_, fun p hp => ?_, fun p hn => ?_⟩, accounted_act ha _, hv',
    ?_, ?_, fun x hx => has_act ha hx (by simp)⟩⟩
  · refine (hlogs p).trans ?_
    rw [hlog, Option.map_some, if_pos ((hmem p).mp hp)]
  · refine (hlogs p).trans ?_
    simp [if_neg (mt (hmem p).mpr hp)]
  · refine (hlogs p).trans ?_
    rw [hn]
    rfl
  · exact Tracked.ended (Or.inl ho) ha.coordinator ha.kept hok
  · have hcoordinator := (Broker.finish_ok hok).1
    show (c.broker.act (.request now (.finish T.txid T.identity .commit))).coordinator.Upholds _ _ _
    rw [hcoordinator]
    exact Coordinator.upholds_finish ha.coordinator (open_iff.mp ho).1 .commit

/-- What changes no log and lets the coordinator stand by the commit. -/
theorem Upheld.act (h : Upheld c₀ c T) {now : Span} {q : Request}
    (hv : (c.broker.handle now q).1.available = true)
    (hlogs : ∀ p, (c.broker.handle now q).1.log? p = c.broker.log? p)
    (hu : (c.broker.act (.request now q)).coordinator.Upholds T.txid T.identity .commit) :
    Upheld c₀ (c.act (.request now q)) T where
  marked := fun p log hp hlog => (hlogs p).trans (h.marked p log hp hlog)
  others := fun p hp => (hlogs p).trans (h.others p hp)
  gone := fun p hn => (hlogs p).trans (h.gone p hn)
  accounted := accounted_act h.accounted _
  available := hv
  ended := ended_stable h.accounted.kept h.ended _
  upholds := hu
  kept := fun x hx => has_act h.accounted (h.kept x hx) (by simp)

/-- A further request to commit changes nothing. -/
theorem Upheld.finish (h : Upheld c₀ c T) (now : Span) :
    (c.broker.handle now (.finish T.txid T.identity .commit)).2 = .ok .finished ∧
      Upheld c₀ (c.act (.request now (.finish T.txid T.identity .commit))) T := by
  have hhandle := Broker.finish_of_upholds h.available h.upholds now
  refine ⟨by rw [hhandle], h.act ?_ (fun p => ?_) ?_⟩
  · rw [hhandle]
    exact h.available
  · rw [hhandle]
  · rw [Broker.act, hhandle]
    exact h.upholds

/-- Neither does a newer identity, of the same producer. -/
theorem Upheld.init (h : Upheld c₀ c T) {now timeout : Span}
    (hlast : ∀ t, c.broker.coordinator.describe T.txid = some t → t.identity.epoch ≠ lastEpoch) :
    Upheld c₀ (c.act (.request now (.init T.txid timeout))) T := by
  obtain ⟨t, hd, -⟩ := h.upholds.1
  obtain ⟨htopics, hv⟩ := Broker.init_of_idle h.available hd (h.upholds.2 t hd).1 now timeout
  refine h.act hv (fun p => Broker.log?_eq_of_topics htopics p) ?_
  have horder : c.broker.order? (.request now (.init T.txid timeout)) = some (.init T.txid timeout) := by
    simp [Broker.order?, Broker.orderOf, h.available]
  rw [Broker.act_coordinator, horder]
  exact Coordinator.upholds_init h.accounted.coordinator h.upholds hlast

/-! ### Records -/

/-- What is upheld has been committed, with all its records. -/
theorem Upheld.committed (h : Upheld c₀ c T) (ha : c₀.Accounted) (ho : c₀.Open T) :
    Committed c₀ c T := by
  refine ⟨h.toMarked, h.ended, fun x hx => ⟨h.kept x hx, (h.kept x hx).decided h.accounted h.ended, ?_⟩⟩
  obtain ⟨log, hlog, he, htag⟩ := hx
  have hi := items_of_entries he
  obtain ⟨U, hU, -, hset, hfate⟩ := ha.record hlog he
  obtain rfl := Option.some.inj (htag.symm.trans hU)
  -- nothing has decided the record before
  have hv : verdict T.identity.producer ((c₀.rows x.1 log).drop (x.2.1 + 1)) = none :=
    (settles_iff ha.kept hset).1.mpr ho
  have hnone : Log.decision T.identity.producer (log.items.drop (x.2.1 + 1)) = none := by
    have hfates := Log.fates_eq_decision hi
    rw [hfate, hv] at hfates
    exact (Option.some.inj hfates).symm
  rw [hv] at hset
  refine ⟨_, h.marked x.1 log hset.2 hlog, ?_⟩
  have hlt : x.2.1 < log.entries.length := (List.getElem?_eq_some_iff.mp he).1
  have hbefore : (log.entries.drop (x.2.1 + 1)).countP (Entry.ends T.identity.producer) = 0 := by
    apply countP_ends
    rw [List.map_drop]
    exact hnone
  calc ((log.mark T.identity.producer .commit).entries.drop (x.2.1 + 1)).countP
        (Entry.ends T.identity.producer)
      = (log.entries.drop (x.2.1 + 1)).countP (Entry.ends T.identity.producer) +
          [Entry.marker log.next T.identity.producer .commit].countP
            (Entry.ends T.identity.producer) := by
        rw [Log.mark, List.drop_append_of_le_length (by omega), List.countP_append]
    _ = 0 + 1 := by
        rw [hbefore]
        simp [Entry.ends]
    _ = 1 := by omega

end Chronicle
end FencedLog
