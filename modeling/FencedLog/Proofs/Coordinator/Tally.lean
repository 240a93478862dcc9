/-
# The coordinator counts right

The coordinator counts as it goes: where an operation moves an entry it also
moves a counter. Every counter is nevertheless a fact about the table or about
the run so far. The known transactional ids are the rows of the table, the
ongoing transactions are the rows in the ongoing stage, and each transaction
that was ever started is ongoing, committed or aborted (`Counted`). So an
operation never takes more off the ongoing transactions than there are.

The balance behind it: the ids that are ongoing after an operation and those
that it ended are the ids that were ongoing before and those that it started
(`ongoing_act`), and what it ended is what it hands back (`length_closings`).

Key definitions: `Coordinator.busy`, `Coordinator.ongoing`,
`Coordinator.begun`, `Coordinator.starts`, `Coordinator.Booked`,
`Coordinator.Timed`, `Coordinator.Counted`.
Key theorems: `Coordinator.ongoing_act`, `Coordinator.length_closings`,
`Coordinator.booked`, `Coordinator.counted_run`.
-/
import Mathlib.Data.List.Nodup
import FencedLog.Proofs.Coordinator.Closing

namespace FencedLog

/-- Whoever is in `q` is in `p` or has come, whoever is in `p` is in `q` or has
gone. -/
theorem countP_balance {α : Type} (p q : α → Bool) (l : List α) :
    l.countP q + l.countP (fun a => p a && !q a) = l.countP p + l.countP (fun a => q a && !p a) := by
  induction l with
  | nil => rfl
  | cons a l ih =>
    simp only [List.countP_cons]
    cases p a <;> cases q a <;> simp <;> omega

theorem Table.length_put {κ ν : Type} [DecidableEq κ] (t : Table κ ν) (k : κ) (v : ν) :
    (t.put k v).rows.length = if k ∈ t.keys then t.rows.length else t.rows.length + 1 := by
  have h := congrArg List.length (Table.write_keys k v t.rows)
  rw [List.length_map, apply_ite List.length, List.length_append, List.length_map] at h
  exact h

namespace Coordinator

/-! ### Ongoing transactions -/

/-- Whether the transactional id has an ongoing transaction. -/
def busy (c : Coordinator) (x : String) : Bool := (c.describe x).any fun t => t.stage = .ongoing

/-- How many transactions are ongoing. -/
def ongoing (c : Coordinator) : Nat := c.transactions.rows.countP fun r => r.2.stage = .ongoing

/-- How many transactional ids an operation brings into the ongoing stage. -/
def begun (c : Coordinator) (op : Op) : Nat :=
  (c.act op).transactions.keys.countP fun x => (c.act op).busy x && !c.busy x

/-- How many transactions a run starts. -/
def starts (c : Coordinator) : List Op → Nat
  | [] => 0
  | op :: ops => c.begun op + (c.act op).starts ops

variable {c : Coordinator} {x : String}

theorem busy_iff : c.busy x = true ↔ ∃ t, c.describe x = some t ∧ t.stage = .ongoing := by
  unfold busy
  cases c.describe x <;> simp

theorem busy_of_describe {t : Transaction} (h : c.describe x = some t) :
    c.busy x = decide (t.stage = .ongoing) := by
  unfold busy
  rw [h]
  rfl

theorem busy_of_none (h : c.describe x = none) : c.busy x = false := by
  unfold busy
  rw [h]
  rfl

theorem mem_keys_iff : x ∈ c.transactions.keys ↔ ∃ t, c.describe x = some t := by
  rw [← Option.ne_none_iff_exists', ne_eq, describe, Table.get?, Table.find_eq_none_iff, not_not]
  rfl

theorem ongoing_eq (h : c.transactions.Distinct) :
    c.ongoing = c.transactions.keys.countP c.busy := by
  unfold ongoing Table.keys
  rw [List.countP_map]
  refine List.countP_congr fun r hr => ?_
  rw [Function.comp_apply, busy_of_describe ((Table.get?_eq_some_iff h).mpr hr)]

/-- No row is lost, and a new one has no transaction yet. -/
theorem keys_act (c : Coordinator) (op : Op) : ∃ new, (c.act op).transactions.keys =
    c.transactions.keys ++ new ∧ ∀ x ∈ new, c.describe x = none := by
  have put : ∀ {y : String} {u : Transaction}, (c.act op).transactions = c.transactions.put y u →
      ∃ new, (c.act op).transactions.keys = c.transactions.keys ++ new ∧
        ∀ x ∈ new, c.describe x = none := by
    intro y u hput
    have hkeys := Table.write_keys y u c.transactions.rows
    rw [hput]
    by_cases hy : y ∈ c.transactions.keys
    · exact ⟨[], by rw [List.append_nil]; exact hkeys.trans (if_pos hy), by simp⟩
    · refine ⟨[y], hkeys.trans (if_neg hy), fun x hx => ?_⟩
      rw [List.mem_singleton.mp hx]
      exact Table.find_eq_none_iff.mpr hy
  have same : (c.act op).transactions = c.transactions →
      ∃ new, (c.act op).transactions.keys = c.transactions.keys ++ new ∧
        ∀ x ∈ new, c.describe x = none := fun he => ⟨[], by rw [he, List.append_nil], by simp⟩
  cases op with
  | init y timeout =>
    rcases init_spec c y timeout with ⟨-, hput, -, -⟩ | ⟨t, -, hput, -, -⟩
    · exact put hput
    · exact put hput
  | enroll now y id ps =>
    rcases enroll_spec c now y id ps with ⟨t, -, -, -, hput, -⟩ | ⟨e, -, -, hf⟩
    · exact put hput
    · exact same hf.transactions
  | permit y id p => exact same (permit_spec c y id p).1.transactions
  | finish y id o =>
    rcases finish_spec c y id o with ⟨t, -, -, -, -, hput, -⟩ | ⟨hf, -⟩
    · exact put hput
    · exact same hf.transactions
  | expire now =>
    refine ⟨[], ?_, by simp⟩
    rw [List.append_nil]
    exact expireRows_keys now c.transactions.rows c.next

/-! ### The balance of one operation -/

/-- Whether the operation ends the transaction of the id. -/
def ends (c : Coordinator) (op : Op) (x : String) : Bool := c.busy x && !(c.act op).busy x

theorem ends_iff (h : c.Sound) {op : Op} : c.ends op x = true ↔
    ∃ t, c.describe x = some t ∧ t.stage = .ongoing ∧ ¬ (c.act op).UnderWay x t.identity := by
  rw [ends, Bool.and_eq_true, Bool.not_eq_true', ← Bool.not_eq_true, busy_iff, busy_iff]
  constructor
  · rintro ⟨⟨t, hd, hs⟩, hno⟩
    exact ⟨t, hd, hs, fun ⟨u, hu, hsu, _⟩ => hno ⟨u, hu, hsu⟩⟩
  · rintro ⟨t, hd, hs, hno⟩
    refine ⟨⟨t, hd, hs⟩, fun ⟨u, hu, hsu⟩ => hno ⟨u, hu, hsu, ?_⟩⟩
    exact underWay_identity h ⟨t, hd, hs, rfl⟩ ⟨u, hu, hsu, rfl⟩

theorem ongoing_act (h : c.Sound) (op : Op) :
    (c.act op).ongoing + c.transactions.keys.countP (c.ends op) = c.ongoing + c.begun op := by
  obtain ⟨new, hkeys, hnew⟩ := keys_act c op
  have hidle : ∀ x ∈ new, c.busy x = false := fun x hx => busy_of_none (hnew x hx)
  have hended : (c.act op).transactions.keys.countP (c.ends op) =
      c.transactions.keys.countP (c.ends op) := by
    have hzero : new.countP (c.ends op) = 0 :=
      List.countP_eq_zero.mpr fun x hx => by simp [ends, hidle x hx]
    rw [hkeys, List.countP_append, hzero, Nat.add_zero]
  have hbefore : (c.act op).transactions.keys.countP c.busy = c.transactions.keys.countP c.busy := by
    have hzero : new.countP c.busy = 0 :=
      List.countP_eq_zero.mpr fun x hx => by simp [hidle x hx]
    rw [hkeys, List.countP_append, hzero, Nat.add_zero]
  rw [ongoing_eq (distinct_act h.keys op), ongoing_eq h.keys, ← hended, ← hbefore]
  exact countP_balance c.busy (c.act op).busy _

/-- An operation hands back one transaction of an id at most. -/
theorem nodup_closings (h : c.Sound) (op : Op) : ((c.closings op).map (·.txid)).Nodup := by
  cases op with
  | init y timeout =>
    rw [closings]
    cases (c.init y timeout).2.2 <;> simp
  | enroll | permit => exact List.nodup_nil
  | finish y id o =>
    rw [closings]
    cases (c.finish y id o).2 with
    | error e => exact List.nodup_nil
    | ok r => cases r <;> simp [handedBack]
  | expire now =>
    show ((expireRows now c.transactions.rows c.next).2.2.map (·.txid)).Nodup
    rw [expireRows_closings, List.map_map]
    have hname : (c.transactions.rows.filter (·.2.expired now)).map
        ((·.txid) ∘ fun r => (r.2.complete .abort).2) =
        (c.transactions.rows.filter (·.2.expired now)).map (·.1) := by
      refine List.map_congr_left fun r hr => ?_
      exact h.named r.1 r.2 (h.mem.mpr (List.mem_filter.mp hr).1)
    rw [hname]
    exact (List.filter_sublist.map _).nodup h.keys

/-- As many transactions are handed back as are ended. -/
theorem length_closings (h : c.Sound) (op : Op) :
    (c.closings op).length = c.transactions.keys.countP (c.ends op) := by
  rw [List.countP_eq_length_filter, ← List.length_map (f := (·.txid))]
  refine List.Perm.length_eq ((List.perm_ext_iff_of_nodup (nodup_closings h op)
    (h.keys.filter _)).mpr fun x => ?_)
  rw [List.mem_map, List.mem_filter, ends_iff h]
  constructor
  · rintro ⟨closing, hc, rfl⟩
    obtain ⟨t, hd, hs, -, hno⟩ := (mem_closings h).mp hc
    exact ⟨mem_keys_iff.mpr ⟨t, hd⟩, t, hd, hs, hno⟩
  · rintro ⟨-, t, hd, hs, hno⟩
    exact ⟨_, mem_closings_of_ended h hd hs hno, h.named x t hd⟩

theorem length_closings_le (h : c.Sound) (op : Op) : (c.closings op).length ≤ c.ongoing := by
  rw [length_closings h op, ongoing_eq h.keys]
  refine List.countP_mono_left fun x _ he => ?_
  rw [ends, Bool.and_eq_true] at he
  exact he.1

/-- Only enrolling starts a transaction. -/
theorem begun_eq_zero (h : c.Sound) {op : Op} (hop : ∀ now x id ps, op ≠ .enroll now x id ps) :
    c.begun op = 0 := by
  refine List.countP_eq_zero.mpr fun x _ hb => ?_
  simp only [Bool.and_eq_true, Bool.not_eq_true', ← Bool.not_eq_true, busy_iff] at hb
  obtain ⟨⟨u, hu, hs⟩, hno⟩ := hb
  rcases underWay_act h ⟨u, hu, hs, rfl⟩ with ⟨t, hd, hst, -⟩ | ⟨now, ps, he⟩
  · exact hno ⟨t, hd, hst⟩
  · exact hop now x u.identity ps he

theorem begun_of_onlyFenced {op : Op} (hf : OnlyFenced c (c.act op)) : c.begun op = 0 := by
  refine List.countP_eq_zero.mpr fun x _ => ?_
  rw [busy, busy, hf.describe x]
  simp

/-- Accepted enrolling starts a transaction unless one is ongoing. -/
theorem begun_enroll (h : c.Sound) {now : Span} {id : Identity} {ps : List TopicPartition}
    {t : Transaction} (hd : c.describe x = some t)
    (hput : (c.act (.enroll now x id ps)).transactions =
      c.transactions.put t.txid (t.enroll now ps)) :
    c.begun (.enroll now x id ps) = if t.stage = .ongoing then 0 else 1 := by
  have hx := h.named x t hd
  have hd' : ∀ y, (c.act (.enroll now x id ps)).busy y = if x = y then true else c.busy y := by
    intro y
    rw [busy, describe_put hput, hx]
    split
    · simp
    · rfl
  have hone : ∀ y, ((c.act (.enroll now x id ps)).busy y && !c.busy y) =
      if x = y then !decide (t.stage = .ongoing) else false := by
    intro y
    rw [hd']
    split
    · rename_i hxy
      rw [← hxy, busy_of_describe hd]
      rfl
    · simp
  rw [begun, List.countP_congr fun y _ => by rw [hone y]]
  split
  · rename_i hs
    simp [hs]
  · rename_i hs
    have hmem : x ∈ (c.act (.enroll now x id ps)).transactions.keys :=
      mem_keys_iff.mpr ⟨_, (describe_put hput x).trans (if_pos hx)⟩
    have hcount := List.count_eq_one_of_mem (distinct_act h.keys _) hmem
    rw [List.count] at hcount
    refine Eq.trans (List.countP_congr fun y _ => ?_) hcount
    by_cases hxy : x = y
    · simp [hs, hxy]
    · simp [hxy, Ne.symm hxy]

/-! ### What is counted -/

/-- How an operation moves the counters. -/
structure Booked (c : Coordinator) (op : Op) : Prop where
  known : (c.act op).tally.known + c.transactions.rows.length =
    c.tally.known + (c.act op).transactions.rows.length
  ongoing : (c.act op).tally.ongoing = c.tally.ongoing + c.begun op - (c.closings op).length
  settled : (c.act op).tally.committed + (c.act op).tally.aborted =
    c.tally.committed + c.tally.aborted + (c.closings op).length
  expired : (c.act op).tally.expired + c.tally.aborted ≤
    c.tally.expired + (c.act op).tally.aborted

theorem booked_of_onlyFenced {op : Op} (hf : OnlyFenced c (c.act op)) (hc : c.closings op = []) :
    c.Booked op := by
  have hb := begun_of_onlyFenced hf
  have hrows := hf.transactions
  constructor
  · rw [hrows, hf.1]
  · rw [hb, hc, hf.1]
    rfl
  · rw [hc, hf.1]
    rfl
  · exact Nat.le_of_eq (by rw [hf.1])

/-- An operation moves the counters as it moves the table. -/
theorem booked (h : c.Sound) (op : Op) : c.Booked op := by
  -- where an entry is written that was there before, no row is added
  have length_eq : ∀ {y : String} {t u : Transaction}, c.describe y = some t →
      (c.act op).transactions = c.transactions.put t.txid u →
      (c.act op).transactions.rows.length = c.transactions.rows.length := by
    intro y t u hd hput
    rw [hput, Table.length_put, h.named y t hd, if_pos (mem_keys_iff.mpr ⟨t, hd⟩)]
  cases op with
  | init y timeout =>
    have hb : c.begun (.init y timeout) = 0 := begun_eq_zero h (by simp)
    rcases init_spec c y timeout with ⟨hn, hput, -, ha⟩ | ⟨t, hd, hput, -, ha⟩
    · have hc : c.closings (.init y timeout) = [] := by
        rw [closings, ha]
        rfl
      have hlen : (c.act (.init y timeout)).transactions.rows.length =
          c.transactions.rows.length + 1 := by
        rw [act, hput, Table.length_put]
        exact if_neg (Table.find_eq_none_iff.mp hn)
      have htally : (c.act (.init y timeout)).tally = { c.tally with known := c.tally.known + 1 } := by
        simp [act, init, hn]
      constructor <;> simp only [hlen, htally, hb, hc, List.length_nil] <;> omega
    · have hlen := length_eq hd hput
      by_cases hs : t.stage = .ongoing
      · have hc : (c.closings (.init y timeout)).length = 1 := by
          rw [closings, ha, if_pos hs]
          rfl
        have htally : (c.act (.init y timeout)).tally = c.tally.ended .abort := by
          simp [act, init, hd, hs]
        constructor <;> simp only [hlen, htally, hb, hc, Tally.ended] <;> omega
      · have hc : c.closings (.init y timeout) = [] := by
          rw [closings, ha, if_neg hs]
          rfl
        have htally : (c.act (.init y timeout)).tally = c.tally := by
          simp [act, init, hd, hs]
        constructor <;> simp only [hlen, htally, hb, hc, List.length_nil] <;> omega
  | enroll now y id ps =>
    rcases enroll_spec c now y id ps with ⟨t, hd, hid, -, hput, -⟩ | ⟨e, -, -, hf⟩
    · have hlen := length_eq hd hput
      have hb := begun_enroll h hd hput
      have htally : (c.act (.enroll now y id ps)).tally = if t.stage = .ongoing then c.tally
          else { c.tally with ongoing := c.tally.ongoing + 1 } := by
        rw [act, enroll, authorize_eq_ok_iff.mpr ⟨hd, hid⟩]
      by_cases hs : t.stage = .ongoing <;>
        constructor <;> simp only [hlen, htally, hb, hs, closings, if_true, if_false, List.length_nil] <;>
        omega
    · exact booked_of_onlyFenced hf rfl
  | permit y id p => exact booked_of_onlyFenced (permit_spec c y id p).1 rfl
  | finish y id o =>
    have hb : c.begun (.finish y id o) = 0 := begun_eq_zero h (by simp)
    rcases finish_spec c y id o with ⟨t, hd, rfl, hs, ha, hput, -⟩ | ⟨hf, ha⟩
    · have hlen := length_eq hd hput
      have hc := congrArg List.length (closings_finish_of_ok ha)
      have htally : (c.act (.finish y t.identity o)).tally = c.tally.ended o := by
        simp [act, finish, hd, Transaction.validate_ok_iff.mpr rfl, hs]
      cases o <;> constructor <;>
        simp only [hlen, htally, hb, hc, Tally.ended, List.length_singleton] <;> omega
    · exact booked_of_onlyFenced hf (closings_finish_of_ne ha)
  | expire now =>
    have hb : c.begun (.expire now) = 0 := begun_eq_zero h (by simp)
    have hlen : (c.act (.expire now)).transactions.rows.length = c.transactions.rows.length := by
      have hkeys := congrArg List.length (expireRows_keys now c.transactions.rows c.next)
      rwa [List.length_map, List.length_map] at hkeys
    constructor
    · rw [hlen]
      rfl
    · rw [hb]
      rfl
    · exact (Nat.add_assoc _ _ _).symm
    · show _ + _ + _ ≤ _ + (_ + _)
      omega

/-! ### A run -/

/-- A transaction has a time of its start exactly while it is ongoing. -/
def Timed (c : Coordinator) : Prop :=
  ∀ x t, c.describe x = some t → (t.stage = .ongoing ↔ t.started.isSome)

theorem timed_start (maxTimeout : Span) : (start maxTimeout).Timed := fun _ _ h => by
  simp [start, describe] at h

theorem timed_act (h : c.Sound) (ht : c.Timed) (op : Op) : (c.act op).Timed := by
  intro x u hu
  have hturn := turn h.named op x
  rw [hu] at hturn
  generalize hd : c.describe x = t? at hturn
  cases hturn with
  | same => exact ht x u hd
  | fresh => simp [Transaction.fresh]
  | enroll t now ps _ =>
    have hold := ht x t hd
    unfold Transaction.enroll
    split
    · exact hold
    · simp
  | complete => simp [Transaction.complete]
  | supersede t n timeout _ _ _ =>
    have hold := ht x t hd
    have hnone : (t.succeed n).started = none := by
      unfold Transaction.succeed
      rw [Transaction.bump_eq]
      split
      · rfl
      · rename_i hs
        rwa [hold, Bool.not_eq_true, Option.isSome_eq_false_iff, Option.isNone_iff_eq_none] at hs
    show (t.succeed n).stage = .ongoing ↔ (t.succeed n).started.isSome
    simp [hnone]

/-- The counters are those of the table, when `starts` transactions have been
started so far. -/
structure Counted (c : Coordinator) (starts : Nat) : Prop where
  known : c.tally.known = c.transactions.rows.length
  ongoing : c.tally.ongoing = c.ongoing
  /-- What any operation takes off the ongoing transactions is there. -/
  covered : ∀ op, (c.closings op).length ≤ c.tally.ongoing
  expired : c.tally.expired ≤ c.tally.aborted
  /-- Whatever was started is ongoing, committed or aborted. -/
  started : starts = c.tally.ongoing + c.tally.committed + c.tally.aborted

theorem counted_start (maxTimeout : Span) : (start maxTimeout).Counted 0 where
  known := rfl
  ongoing := rfl
  covered := length_closings_le (sound_start maxTimeout)
  expired := Nat.le_refl _
  started := rfl

theorem counted_act (h : c.Sound) {n : Nat} (hc : c.Counted n) (op : Op) :
    (c.act op).Counted (n + c.begun op) := by
  have hb := booked h op
  have hbalance := ongoing_act h op
  rw [← length_closings h op] at hbalance
  have hcovered := hc.covered op
  have hongoing : (c.act op).tally.ongoing = (c.act op).ongoing := by
    rw [hb.ongoing, hc.ongoing]
    omega
  exact {
    known := by have := hb.known; have := hc.known; omega
    ongoing := hongoing
    covered := fun op' => hongoing ▸ length_closings_le (sound_act h op) op'
    expired := by have := hb.expired; have := hc.expired; omega
    started := by have := hb.ongoing; have := hb.settled; have := hc.started; omega }

theorem counted_ops (ops : List Op) {c : Coordinator} {n : Nat} (h : c.Sound) (ht : c.Timed)
    (hc : c.Counted n) : (c.run ops).Timed ∧ (c.run ops).Counted (n + c.starts ops) := by
  induction ops generalizing c n with
  | nil => exact ⟨ht, hc⟩
  | cons op ops ih =>
    rw [starts, ← Nat.add_assoc]
    exact ih (sound_act h op) (timed_act h ht op) (counted_act h hc op)

/-- **Table and counters agree after every run.** The entries are sound, an
entry has a start exactly while it is ongoing, and every counter is that of the
table or of the run. -/
theorem counted_run (maxTimeout : Span) (ops : List Op) :
    ((start maxTimeout).run ops).Sound ∧ ((start maxTimeout).run ops).Timed ∧
      ((start maxTimeout).run ops).Counted ((start maxTimeout).starts ops) := by
  have hc := counted_ops ops (sound_start maxTimeout) (timed_start maxTimeout)
    (counted_start maxTimeout)
  rw [Nat.zero_add] at hc
  exact ⟨sound_run (sound_start maxTimeout) ops, hc⟩

end Coordinator
end FencedLog
