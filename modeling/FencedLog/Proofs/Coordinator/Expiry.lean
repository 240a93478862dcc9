/-
# Expiry ends exactly what has outlived its timeout

A transaction is overdue when it is ongoing and was started longer ago than its
timeout. Expiry goes through the table once. Each overdue transaction is handed
back in one closing, under the producer that it had, and its entry goes on under
the next identity with the abort recorded for the epoch that is over; every
other entry stays as it is, and a second look at the same reading of the clock
finds nothing (`Expires`). The table may be gone through in any order
(`Rearranged`): the order decides no more than the numbers of the new producers.

The time of a transaction runs from the operation that started it. As long as
the transaction lasts (`Lasts`) nothing moves its start or its timeout, so to
enroll more partitions does not prolong it (`Dated`).

Key definitions: `Transaction.Overdue`, `Transaction.TimedOut`,
`Coordinator.Expires`, `Coordinator.Rearranged`, `Coordinator.Lasts`,
`Coordinator.Dated`.
Key theorems: `Coordinator.expires`, `Coordinator.clock_of_lasts`,
`Coordinator.dated_run`, `Coordinator.sweeps_run`.
-/
import Mathlib.Data.List.Induction
import FencedLog.Proofs.Coordinator.Tally

namespace FencedLog

/-! ### One transaction -/

namespace Transaction

/-- The transaction is ongoing, and was started longer ago than its timeout. -/
def Overdue (t : Transaction) (now : Span) : Prop :=
  t.stage = .ongoing ∧
    ∃ since, t.started = some since ∧ since.nanos + t.timeout.nanos < now.nanos

/-- What has become of an entry whose transaction has timed out. -/
structure TimedOut (t t' : Transaction) : Prop where
  txid : t'.txid = t.txid
  stage : t'.stage = .empty
  partitions : t'.partitions = []
  started : t'.started = none
  timeout : t'.timeout = t.timeout
  /-- It is at the next epoch, and the old one has been aborted. -/
  next : t.identity.epoch ≠ lastEpoch →
    t'.identity = ⟨t.identity.producer, t.identity.epoch + 1⟩ ∧
      ∀ e, t'.outcomes.get? e = if e = t.identity.epoch then some .abort else t.outcomes.get? e
  /-- After the last epoch it is at the first one of another producer. -/
  last : t.identity.epoch = lastEpoch → t'.identity.epoch = 0 ∧ ∀ e, t'.outcomes.get? e = none

variable {t : Transaction} {now : Span}

theorem expired_iff : t.expired now = true ↔ t.Overdue now := by
  unfold expired Overdue
  rw [Bool.and_eq_true, decide_eq_true_eq]
  refine and_congr_right fun _ => ?_
  cases hs : t.started with
  | none => simp
  | some since =>
    simp only [decide_eq_true_eq, Option.some.injEq, exists_eq_left']
    omega

theorem expired_eq_false_iff : t.expired now = false ↔ ¬ t.Overdue now := by
  rw [← expired_iff, Bool.not_eq_true]

theorem timedOut_succeed (h : t.stage = .ongoing) (n : Int) : t.TimedOut (t.succeed n) where
  txid := t.succeed_txid n
  stage := t.succeed_stage n
  partitions := by rw [succeed_partitions, if_pos h]
  started := by simp [succeed, bump_eq, h, complete]
  timeout := by simp [succeed, bump_eq, h, complete]
  next := fun hl => by
    rw [succeed_identity, succeed_outcomes, Identity.following, if_neg hl, if_neg hl, if_pos h]
    refine ⟨rfl, fun e => ?_⟩
    rw [Table.get?_put]
    by_cases he : e = t.identity.epoch
    · rw [if_pos he, if_pos he.symm]
    · rw [if_neg he, if_neg fun h => he h.symm]
  last := fun hl => by
    rw [succeed_identity, succeed_outcomes, Identity.following, if_pos hl, if_pos hl]
    exact ⟨rfl, fun e => Table.get?_empty e⟩

end Transaction

namespace Coordinator

variable {c : Coordinator} {x : String} {id : Identity} {now : Span}

/-! ### One look at the table -/

/-- What becomes of a coordinator that ends what is overdue. -/
structure Expires (c : Coordinator) (now : Span) (c' : Coordinator) (closings : List Closing) :
    Prop where
  /-- No transactional id is handed back twice. -/
  once : (closings.map (·.txid)).Nodup
  /-- What is handed back is what was overdue, as it was before. -/
  overdue : ∀ closing, closing ∈ closings ↔ ∃ t, c.describe closing.txid = some t ∧
    t.Overdue now ∧ closing = ⟨closing.txid, t.identity.producer, .abort, t.partitions⟩
  timedOut : ∀ x t, c.describe x = some t → t.Overdue now →
    ∃ t', c'.describe x = some t' ∧ t.TimedOut t'
  /-- A producer that is taken up after the last epoch is a new one, and nobody
  else has it. -/
  fresh : ∀ x t t', c.describe x = some t → t.Overdue now → t.identity.epoch = lastEpoch →
    c'.describe x = some t' → (∀ y u, c.describe y = some u →
      u.identity.producer < t'.identity.producer) ∧
    ∀ y u, c'.describe y = some u → y ≠ x → u.identity.producer ≠ t'.identity.producer
  others : ∀ x, (∀ t, c.describe x = some t → ¬ t.Overdue now) → c'.describe x = c.describe x
  covered : closings.length ≤ c.tally.ongoing
  tally : c'.tally = { c.tally with
    ongoing := c.tally.ongoing - closings.length
    aborted := c.tally.aborted + closings.length
    expired := c.tally.expired + closings.length }
  maxTimeout : c'.maxTimeout = c.maxTimeout

/-- Where nothing is overdue the table stays as it is. -/
theorem expireRows_idle {rows : List (String × Transaction)}
    (h : ∀ r ∈ rows, r.2.expired now = false) (next : Int) :
    expireRows now rows next = (rows, next, []) := by
  induction rows with
  | nil => rfl
  | cons row rows ih =>
    obtain ⟨x, t⟩ := row
    rw [expireRows_cons, if_neg (by simpa using h (x, t) List.mem_cons_self),
      ih fun r hr => h r (List.mem_cons_of_mem _ hr)]

theorem expire_idle (h : c.Sound) (hnone : ∀ x t, c.describe x = some t → ¬ t.Overdue now) :
    c.expire now = (c, []) := by
  have hrows : ∀ r ∈ c.transactions.rows, r.2.expired now = false := fun r hr =>
    Transaction.expired_eq_false_iff.mpr (hnone r.1 r.2 (h.mem.mpr hr))
  unfold expire
  rw [expireRows_idle hrows]
  rfl

theorem mem_expire (h : c.Sound) {closing : Closing} : closing ∈ (c.expire now).2 ↔
    ∃ t, c.describe closing.txid = some t ∧ t.Overdue now ∧
      closing = ⟨closing.txid, t.identity.producer, .abort, t.partitions⟩ := by
  show closing ∈ (expireRows now c.transactions.rows c.next).2.2 ↔ _
  rw [expireRows_closings, List.mem_map]
  constructor
  · rintro ⟨⟨x, t⟩, hr, rfl⟩
    obtain ⟨hmem, he⟩ := List.mem_filter.mp hr
    have hd := h.mem.mpr hmem
    have hx : t.txid = x := h.named x t hd
    refine ⟨t, ?_, Transaction.expired_iff.mp he, rfl⟩
    show c.describe t.txid = some t
    rwa [hx]
  · rintro ⟨t, hd, ho, hc⟩
    refine ⟨(closing.txid, t), List.mem_filter.mpr ⟨h.mem.mp hd, ?_⟩, ?_⟩
    · exact Transaction.expired_iff.mpr ho
    · rw [hc, Transaction.complete, h.named _ t hd]

/-- An overdue entry is superseded, under a number of a new producer if it needs
one. -/
theorem describe_expire_overdue {t : Transaction} (hd : c.describe x = some t)
    (ho : t.Overdue now) : ∃ n, c.next ≤ n ∧ (c.expire now).1.describe x = some (t.succeed n) := by
  rcases describe_expire c now hd with ⟨hf, -⟩ | ⟨-, n, hn, -, hx⟩
  · exact absurd ho (Transaction.expired_eq_false_iff.mp hf)
  · exact ⟨n, hn, hx⟩

theorem expires (h : c.Sound) (hcount : c.tally.ongoing = c.ongoing) :
    c.Expires now (c.expire now).1 (c.expire now).2 where
  once := nodup_closings h (.expire now)
  overdue := fun closing => mem_expire h
  timedOut := fun x t hd ho => by
    obtain ⟨n, -, hx⟩ := describe_expire_overdue hd ho
    exact ⟨_, hx, Transaction.timedOut_succeed ho.1 n⟩
  fresh := fun x t t' hd ho hl hd' => by
    obtain ⟨n, hn, hx⟩ := describe_expire_overdue hd ho
    obtain rfl := Option.some.inj (hd'.symm.trans hx)
    have hp : (t.succeed n).identity.producer = n := by
      rw [Transaction.succeed_identity, Identity.following, if_pos hl]
    refine ⟨fun y u hu => ?_, fun y u hu hne he => hne ?_⟩
    · have := h.below y u hu
      omega
    · exact apart_act h (.expire now) hu hd' he
  others := fun x hno => by
    cases hd : c.describe x with
    | none => exact describe_expire_none c now hd
    | some t =>
      rcases describe_expire c now hd with ⟨-, hx⟩ | ⟨he, -⟩
      · exact hx
      · exact absurd (Transaction.expired_iff.mp he) (hno t hd)
  covered := hcount ▸ length_closings_le h (.expire now)
  tally := rfl
  maxTimeout := rfl

/-- Nothing is overdue any more. -/
theorem Expires.settled {c' : Coordinator} {closings : List Closing}
    (h : c.Expires now c' closings) {x : String} {t' : Transaction} (hd : c'.describe x = some t') :
    ¬ t'.Overdue now := by
  intro ho
  by_cases hno : ∃ t, c.describe x = some t ∧ t.Overdue now
  · obtain ⟨t, ht, hto⟩ := hno
    obtain ⟨u, hu, hout⟩ := h.timedOut x t ht hto
    obtain rfl := Option.some.inj (hd.symm.trans hu)
    have := ho.1.symm.trans hout.stage
    cases this
  · have hsame := h.others x fun t ht hto => hno ⟨t, ht, hto⟩
    exact hno ⟨t', hsame.symm.trans hd, ho⟩

/-! ### The order of the table -/

/-- The same coordinator, whose table is gone through in another order. -/
structure Rearranged (c c' : Coordinator) : Prop where
  rows : c'.transactions.rows.Perm c.transactions.rows
  rest : c' = { c with transactions := c'.transactions }

namespace Rearranged

variable {c' : Coordinator}

theorem distinct (h : c.Rearranged c') (hs : c.Sound) : c'.transactions.Distinct :=
  (h.rows.map _).nodup_iff.mpr hs.keys

theorem describe (h : c.Rearranged c') (hs : c.Sound) (x : String) :
    c'.describe x = c.describe x := by
  refine Option.ext fun t => ?_
  have hrow : c'.describe x = some t ↔ (x, t) ∈ c'.transactions.rows :=
    Table.get?_eq_some_iff (h.distinct hs)
  rw [hrow, hs.mem]
  exact h.rows.mem_iff

theorem sound (h : c.Rearranged c') (hs : c.Sound) : c'.Sound where
  keys := h.distinct hs
  named := fun x t hd => hs.named x t (h.describe hs x ▸ hd)
  below := fun x t hd => by
    rw [h.rest]
    exact hs.below x t (h.describe hs x ▸ hd)
  apart := fun x y t u hx hy he =>
    hs.apart x y t u (h.describe hs x ▸ hx) (h.describe hs y ▸ hy) he
  entries := fun x t hd => hs.entries x t (h.describe hs x ▸ hd)

theorem tally (h : c.Rearranged c') : c'.tally = c.tally := by rw [h.rest]

theorem ongoing (h : c.Rearranged c') : c'.ongoing = c.ongoing := h.rows.countP_eq _

/-- Whatever the order, what expires is what is overdue. -/
theorem expires (h : c.Rearranged c') (hs : c.Sound) (hcount : c.tally.ongoing = c.ongoing) :
    c.Expires now (c'.expire now).1 (c'.expire now).2 := by
  have hcount' : c'.tally.ongoing = c'.ongoing := by rw [h.tally, h.ongoing, hcount]
  have he : c'.Expires now (c'.expire now).1 (c'.expire now).2 :=
    Coordinator.expires (h.sound hs) hcount'
  exact {
    once := he.once
    overdue := fun closing => by
      rw [← h.describe hs]
      exact he.overdue closing
    timedOut := fun x t hd => he.timedOut x t (h.describe hs x ▸ hd)
    fresh := fun x t t' hd ho hl hd' => by
      obtain ⟨hnew, halone⟩ := he.fresh x t t' (h.describe hs x ▸ hd) ho hl hd'
      exact ⟨fun y u hu => hnew y u (h.describe hs y ▸ hu), halone⟩
    others := fun x hno => by
      rw [← h.describe hs]
      exact he.others x fun t hd => hno t (h.describe hs x ▸ hd)
    covered := h.tally ▸ he.covered
    tally := h.tally ▸ he.tally
    maxTimeout := by
      rw [he.maxTimeout, h.rest] }

end Rearranged

/-! ### The time of a transaction -/

/-- The transaction of the identity is under way all through the operations. -/
def Lasts (c : Coordinator) (x : String) (id : Identity) : List Op → Prop
  | [] => c.UnderWay x id
  | op :: ops => c.UnderWay x id ∧ (c.act op).Lasts x id ops

theorem lasts_concat {op : Op} : ∀ {ops : List Op} {c : Coordinator},
    c.Lasts x id (ops ++ [op]) ↔ c.Lasts x id ops ∧ (c.run (ops ++ [op])).UnderWay x id
  | [], _ => Iff.rfl
  | _ :: ops, _ => by
    simp only [List.cons_append, Lasts, run, and_assoc]
    exact and_congr_right fun _ => lasts_concat

/-- One operation does not move the start and the timeout of a transaction that
it leaves under way. -/
theorem clock_act (hs : c.Sound) {op : Op} {t : Transaction} (hd : c.describe x = some t)
    (ho : t.stage = .ongoing) (hw : (c.act op).UnderWay x t.identity) :
    ∃ u, (c.act op).describe x = some u ∧ u.stage = .ongoing ∧ u.identity = t.identity ∧
      u.started = t.started ∧ u.timeout = t.timeout := by
  obtain ⟨u, hu, hou, hid⟩ := hw
  refine ⟨u, hu, hou, hid, ?_⟩
  have ht := turn hs.named op x
  rw [hd, hu] at ht
  cases ht with
  | same => exact ⟨rfl, rfl⟩
  | enroll _ now ps _ =>
    rw [Transaction.enroll, if_pos ho]
    exact ⟨rfl, rfl⟩
  | complete _ o _ _ => simp at hou
  | supersede _ n timeout _ _ _ =>
    replace hou : (t.succeed n).stage = .ongoing := hou
    simp at hou

/-- **A transaction that lasts keeps its time.** -/
theorem clock_of_lasts : ∀ {ops : List Op} {c : Coordinator}, c.Sound → ∀ {t : Transaction},
    c.describe x = some t → c.Lasts x t.identity ops →
      ∃ u, (c.run ops).describe x = some u ∧ u.stage = .ongoing ∧ u.identity = t.identity ∧
        u.started = t.started ∧ u.timeout = t.timeout
  | [], _, _, t, hd, hl => ⟨t, hd, ((underWay_iff hd _).mp hl).1, rfl, rfl, rfl⟩
  | op :: ops, c, hs, t, hd, hl => by
    have ho := ((underWay_iff hd _).mp hl.1).1
    have hw : (c.act op).UnderWay x t.identity := by
      cases ops with
      | nil => exact hl.2
      | cons _ _ => exact hl.2.1
    obtain ⟨u, hu, -, hid, hst, hto⟩ := clock_act hs hd ho hw
    obtain ⟨v, hv, hov, hid', hst', hto'⟩ := clock_of_lasts (sound_act hs op) hu (hid ▸ hl.2)
    exact ⟨v, hv, hov, hid'.trans hid, hst'.trans hst, hto'.trans hto⟩

/-- To enroll ends no transaction. -/
theorem underWay_enroll (hs : c.Sound) (hw : c.UnderWay x id) (now : Span) (y : String)
    (id' : Identity) (ps : List TopicPartition) : (c.act (.enroll now y id' ps)).UnderWay x id := by
  obtain ⟨t, hd, ho, rfl⟩ := hw
  have ht := turn hs.named (.enroll now y id' ps) x
  rw [hd] at ht
  generalize hd' : (c.act (.enroll now y id' ps)).describe x = t'? at ht
  cases ht with
  | same => exact ⟨t, hd', ho, rfl⟩
  | enroll _ now ps _ => exact ⟨_, hd', t.enroll_stage now ps, t.enroll_identity now ps⟩
  | complete _ o he _ => cases he
  | supersede _ n timeout he _ _ => rcases he with ⟨_, he⟩ | ⟨_, he, -⟩ <;> cases he

theorem lasts_enrolls : ∀ {ops : List Op} {c : Coordinator}, c.Sound → c.UnderWay x id →
    (∀ op ∈ ops, ∃ now y id' ps, op = .enroll now y id' ps) → c.Lasts x id ops
  | [], _, _, hw, _ => hw
  | op :: ops, c, hs, hw, hops => by
    obtain ⟨now, y, id', ps, rfl⟩ := hops op List.mem_cons_self
    refine ⟨hw, lasts_enrolls (sound_act hs _) (underWay_enroll hs hw now y id' ps) fun op hop => ?_⟩
    exact hops op (List.mem_cons_of_mem _ hop)

/-- The operation that started the transaction of `x` which is ongoing after the
operations: it was accepted at this reading of the clock when `x` had no ongoing
transaction, and the transaction has lasted since. -/
def Since (c : Coordinator) (x : String) (id : Identity) (since : Span) (ops : List Op) : Prop :=
  ∃ before ps after, ops = before ++ .enroll since x id ps :: after ∧
    (c.run before).busy x = false ∧ ((c.run before).enroll since x id ps).2 = .ok () ∧
    ((c.run before).act (.enroll since x id ps)).Lasts x id after

/-- The time of an ongoing transaction runs from the operation that started it,
and enrolling does not prolong it. -/
structure Dated (c : Coordinator) (ops : List Op) : Prop where
  since : ∀ x t, (c.run ops).describe x = some t → t.stage = .ongoing →
    ∃ since, t.started = some since ∧ c.Since x t.identity since ops
  unmoved : ∀ x t more, (c.run ops).describe x = some t → t.stage = .ongoing →
    (∀ op ∈ more, ∃ now y id ps, op = .enroll now y id ps) →
      ∃ u, ((c.run ops).run more).describe x = some u ∧ u.identity = t.identity ∧
        u.started = t.started ∧ ∀ now, u.Overdue now ↔ t.Overdue now

theorem since_concat {op : Op} {since : Span} {ops : List Op} (h : c.Since x id since ops)
    (hw : (c.run (ops ++ [op])).UnderWay x id) : c.Since x id since (ops ++ [op]) := by
  obtain ⟨before, ps, after, rfl, hidle, hok, hl⟩ := h
  refine ⟨before, ps, after ++ [op], by simp, hidle, hok, lasts_concat.mpr ⟨hl, ?_⟩⟩
  rw [List.append_assoc, run_append] at hw
  exact hw

theorem since_run (hs : c.Sound) (hidle : ∀ x, c.busy x = false) (ops : List Op) :
    ∀ x t, (c.run ops).describe x = some t → t.stage = .ongoing →
      ∃ since, t.started = some since ∧ c.Since x t.identity since ops := by
  induction ops using List.reverseRecOn with
  | nil =>
    intro x t hd ho
    exact absurd (busy_iff.mpr ⟨t, hd, ho⟩) (by simp [run, hidle x])
  | append_singleton ops op ih =>
    intro x u hu ho
    have hs' := sound_run hs ops
    have hw : (c.run (ops ++ [op])).UnderWay x u.identity := ⟨u, hu, ho, rfl⟩
    have ht := turn hs'.named op x
    have hu' : ((c.run ops).act op).describe x = some u := by
      rw [run_append] at hu
      exact hu
    rw [hu'] at ht
    generalize hd : (c.run ops).describe x = t? at ht
    cases ht with
    | same =>
      obtain ⟨since, hst, h⟩ := ih x u hd ho
      exact ⟨since, hst, since_concat h hw⟩
    | fresh n timeout _ _ => simp [Transaction.fresh] at ho
    | enroll t now ps hop =>
      rw [Transaction.enroll_identity] at hw ⊢
      by_cases hot : t.stage = .ongoing
      · obtain ⟨since, hst, h⟩ := ih x t hd hot
        refine ⟨since, ?_, since_concat h hw⟩
        rwa [Transaction.enroll, if_pos hot]
      · -- the transaction starts here
        subst hop
        refine ⟨now, by rw [Transaction.enroll, if_neg hot], ops, ps, [], rfl, ?_, ?_, ?_⟩
        · rw [busy_of_describe hd, decide_eq_false hot]
        · rw [Coordinator.enroll, authorize_eq_ok_iff.mpr ⟨hd, rfl⟩]
        · exact ⟨_, hu', t.enroll_stage now ps, t.enroll_identity now ps⟩
    | complete t o _ _ => simp at ho
    | supersede t n timeout _ _ _ =>
      replace ho : (t.succeed n).stage = .ongoing := ho
      simp at ho

theorem overdue_congr {t u : Transaction} (ho : t.stage = .ongoing) (hou : u.stage = .ongoing)
    (hst : u.started = t.started) (hto : u.timeout = t.timeout) (now : Span) :
    u.Overdue now ↔ t.Overdue now := by
  simp only [Transaction.Overdue, ho, hou, hst, hto]

theorem dated_run (hs : c.Sound) (hidle : ∀ x, c.busy x = false) (ops : List Op) :
    c.Dated ops where
  since := since_run hs hidle ops
  unmoved := fun x t more hd ho hmore => by
    have hs' := sound_run hs ops
    obtain ⟨u, hu, hou, hid, hst, hto⟩ :=
      clock_of_lasts hs' hd (lasts_enrolls hs' ⟨t, hd, ho, rfl⟩ hmore)
    exact ⟨u, hu, hid, hst, overdue_congr ho hou hst hto⟩

/-! ### After every run -/

/-- What a coordinator that was reached by the operations does when it looks for
overdue transactions. -/
structure Sweeps (c : Coordinator) (ops : List Op) : Prop where
  /-- In whatever order it goes through its table, it ends what is overdue. -/
  expires : ∀ now c', (c.run ops).Rearranged c' →
    (c.run ops).Expires now (c'.expire now).1 (c'.expire now).2
  /-- A second look at the same reading of the clock ends nothing. -/
  settled : ∀ now c' c'', (c.run ops).Rearranged c' → (c'.expire now).1.Rearranged c'' →
    c''.expire now = (c'', [])
  dated : c.Dated ops

/-- **Expiry ends exactly the overdue transactions**, after every run of
operations. -/
theorem sweeps_run (maxTimeout : Span) (ops : List Op) : (start maxTimeout).Sweeps ops := by
  obtain ⟨hs, -, hcounted⟩ := counted_run maxTimeout ops
  have hexpires : ∀ now c', ((start maxTimeout).run ops).Rearranged c' →
      ((start maxTimeout).run ops).Expires now (c'.expire now).1 (c'.expire now).2 :=
    fun now c' hc => hc.expires hs hcounted.ongoing
  refine ⟨hexpires, fun now c' c'' hc hc' => ?_, ?_⟩
  · have hs' : (c'.expire now).1.Sound := sound_act (hc.sound hs) (.expire now)
    refine expire_idle (hc'.sound hs') fun x t hd => ?_
    rw [hc'.describe hs'] at hd
    exact (hexpires now c' hc).settled hd
  · exact dated_run (sound_start maxTimeout) (fun x => busy_of_none rfl) ops

end Coordinator
end FencedLog
