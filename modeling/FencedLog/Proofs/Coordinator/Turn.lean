/-
# What one operation does to one transactional id

The coordinator keeps its entries apart: whatever the operation, each entry
stays as it is, is made, enrolls, completes, or moves on to its next identity
(`Turn`). An operation that answers with a refusal, and one that only asks,
changes nothing but the count of fenced requests (`OnlyFenced`).

Key definitions: `Transaction.succeed`, `Coordinator.Op`, `Coordinator.act`,
`Coordinator.Turn`, `Coordinator.OnlyFenced`.
Key theorems: `Coordinator.turn`, `Coordinator.enroll_spec`,
`Coordinator.permit_spec`, `Coordinator.finish_spec`, `Coordinator.init_spec`,
`Coordinator.describe_expire`.
-/
import FencedLog.Coordinator.Basic
import FencedLog.Proofs.Keys

namespace FencedLog

/-! ### The next identity -/

/-- The identity that follows: one epoch later, and after the last epoch the
first one of the producer `next`. -/
def Identity.following (id : Identity) (next : Int) : Identity :=
  if id.epoch = lastEpoch then ⟨next, 0⟩ else ⟨id.producer, id.epoch + 1⟩

namespace Transaction

/-- The entry under its next identity: what was open is aborted. -/
def succeed (t : Transaction) (next : Int) : Transaction :=
  ((if t.stage = .ongoing then (t.complete .abort).1 else t).bump next).1

variable (t : Transaction) (next : Int)

theorem bump_eq : t.bump next =
    ({ t with
        identity := t.identity.following next
        stage := .empty
        outcomes := if t.identity.epoch = lastEpoch then .empty else t.outcomes },
      if t.identity.epoch = lastEpoch then next + 1 else next) := by
  unfold bump Identity.following
  split <;> rfl

@[simp] theorem succeed_txid : (t.succeed next).txid = t.txid := by
  unfold succeed
  rw [bump_eq]
  split <;> rfl

@[simp] theorem succeed_stage : (t.succeed next).stage = .empty := by
  unfold succeed
  rw [bump_eq]

@[simp] theorem succeed_identity : (t.succeed next).identity = t.identity.following next := by
  unfold succeed
  rw [bump_eq]
  split <;> rfl

theorem succeed_partitions :
    (t.succeed next).partitions = if t.stage = .ongoing then [] else t.partitions := by
  unfold succeed
  rw [bump_eq]
  split <;> rfl

theorem succeed_outcomes : (t.succeed next).outcomes =
    if t.identity.epoch = lastEpoch then .empty
    else if t.stage = .ongoing then t.outcomes.put t.identity.epoch .abort else t.outcomes := by
  unfold succeed
  rw [bump_eq]
  by_cases h : t.stage = .ongoing <;> simp [h, complete]

@[simp] theorem enroll_txid (now : Span) (ps : List TopicPartition) :
    (t.enroll now ps).txid = t.txid := by
  unfold enroll
  split <;> rfl

@[simp] theorem enroll_stage (now : Span) (ps : List TopicPartition) :
    (t.enroll now ps).stage = .ongoing := by
  unfold enroll
  split
  · assumption
  · rfl

@[simp] theorem enroll_identity (now : Span) (ps : List TopicPartition) :
    (t.enroll now ps).identity = t.identity := by
  unfold enroll
  split <;> rfl

@[simp] theorem enroll_outcomes (now : Span) (ps : List TopicPartition) :
    (t.enroll now ps).outcomes = t.outcomes := by
  unfold enroll
  split <;> rfl

theorem mem_enroll_partitions {now : Span} {ps : List TopicPartition} {p : TopicPartition} :
    p ∈ (t.enroll now ps).partitions ↔ p ∈ ps ∨ (t.stage = .ongoing ∧ p ∈ t.partitions) := by
  unfold enroll
  split
  · rename_i h
    simp only [TopicPartition.mem_insertAll, h, true_and]
  · rename_i h
    simp only [TopicPartition.mem_insertAll, List.not_mem_nil, h, false_and]

@[simp] theorem complete_stage (o : Outcome) : (t.complete o).1.stage = .completed o := rfl

@[simp] theorem complete_identity (o : Outcome) : (t.complete o).1.identity = t.identity := rfl

theorem stage_of_expired {now : Span} (h : t.expired now = true) : t.stage = .ongoing := by
  simp only [expired, Bool.and_eq_true, decide_eq_true_eq] at h
  exact h.1

end Transaction

namespace Coordinator

/-! ### Answers without an effect -/

/-- The coordinators agree, but for a count of fenced requests that may have
grown. -/
def OnlyFenced (c c' : Coordinator) : Prop :=
  c' = { c with tally := { c.tally with fenced := c'.tally.fenced } } ∧
    c.tally.fenced ≤ c'.tally.fenced

theorem OnlyFenced.refl (c : Coordinator) : OnlyFenced c c := ⟨rfl, Nat.le_refl _⟩

theorem OnlyFenced.transactions {c c' : Coordinator} (h : OnlyFenced c c') :
    c'.transactions = c.transactions := by rw [h.1]

theorem OnlyFenced.next {c c' : Coordinator} (h : OnlyFenced c c') : c'.next = c.next := by rw [h.1]

theorem OnlyFenced.describe {c c' : Coordinator} (h : OnlyFenced c c') (x : String) :
    c'.describe x = c.describe x := by
  unfold Coordinator.describe
  rw [h.transactions]

theorem onlyFenced_refuse {α : Type} (c : Coordinator) (e : BrokerError) :
    OnlyFenced c (c.refuse (α := α) e).1 := by
  cases e with
  | fenced => exact ⟨rfl, Nat.le_succ _⟩
  | _ => exact .refl c

@[simp] theorem refuse_answer {α : Type} (c : Coordinator) (e : BrokerError) :
    (c.refuse (α := α) e).2 = .error e := by
  cases e <;> rfl

/-! ### The operations -/

variable {c : Coordinator} {x : String} {id : Identity}

theorem authorize_eq_ok_iff {t : Transaction} :
    c.authorize x id = .ok t ↔ c.describe x = some t ∧ id = t.identity := by
  constructor
  · exact authorize_ok
  · rintro ⟨hd, rfl⟩
    simp [authorize, hd, Transaction.validate_ok_iff.mpr, Except.map]

/-- Enrolling succeeds under the current identity, and is refused without an
effect under any other. -/
theorem enroll_spec (c : Coordinator) (now : Span) (x : String) (id : Identity)
    (ps : List TopicPartition) :
    (∃ t, c.describe x = some t ∧ id = t.identity ∧
      (c.enroll now x id ps).2 = .ok () ∧
      (c.enroll now x id ps).1.transactions = c.transactions.put t.txid (t.enroll now ps) ∧
      (c.enroll now x id ps).1.next = c.next) ∨
    (∃ e, c.authorize x id = .error e ∧ (c.enroll now x id ps).2 = .error e ∧
      OnlyFenced c (c.enroll now x id ps).1) := by
  unfold enroll
  cases ha : c.authorize x id with
  | ok t =>
    obtain ⟨hd, hid⟩ := authorize_ok ha
    refine Or.inl ⟨t, hd, hid, rfl, ?_, rfl⟩
    simp [keep]
  | error e => exact Or.inr ⟨e, rfl, refuse_answer c e, onlyFenced_refuse c e⟩

/-- To ask for permission has no effect. It is given under the current
identity, for the partitions of an ongoing transaction. -/
theorem permit_spec (c : Coordinator) (x : String) (id : Identity) (p : TopicPartition) :
    OnlyFenced c (c.permit x id p).1 ∧
    ((c.permit x id p).2 = .ok () ↔ ∃ t, c.describe x = some t ∧ id = t.identity ∧
      t.stage = .ongoing ∧ p ∈ t.partitions) ∧
    (∀ e, c.authorize x id = .error e → (c.permit x id p).2 = .error e) := by
  unfold permit
  cases ha : c.authorize x id with
  | error e =>
    refine ⟨onlyFenced_refuse c e, ?_, fun e' he => by rw [← Except.error.inj he, refuse_answer]⟩
    simp only [refuse_answer, reduceCtorEq, false_iff, not_exists, not_and]
    intro t hd hid
    rw [authorize_eq_ok_iff.mpr ⟨hd, hid⟩] at ha
    cases ha
  | ok t =>
    obtain ⟨hd, hid⟩ := authorize_ok ha
    have hone : (∃ t', c.describe x = some t' ∧ id = t'.identity ∧ t'.stage = .ongoing ∧
        p ∈ t'.partitions) ↔ t.stage = .ongoing ∧ p ∈ t.partitions := by
      constructor
      · rintro ⟨t', hd', -, h⟩
        rw [hd] at hd'
        rwa [Option.some.inj hd']
      · exact fun h => ⟨t, hd, hid, h⟩
    rw [hone]
    by_cases hs : t.stage = .ongoing
    · by_cases hp : p ∈ t.partitions <;> simp [hs, hp, OnlyFenced.refl]
    · simp [hs, OnlyFenced.refl]

/-- An end request completes the ongoing transaction of the current identity,
or has no effect. -/
theorem finish_spec (c : Coordinator) (x : String) (id : Identity) (o : Outcome) :
    (∃ t, c.describe x = some t ∧ id = t.identity ∧ t.stage = .ongoing ∧
      (c.finish x id o).2 = .ok (some (t.complete o).2) ∧
      (c.finish x id o).1.transactions = c.transactions.put t.txid (t.complete o).1 ∧
      (c.finish x id o).1.next = c.next) ∨
    (OnlyFenced c (c.finish x id o).1 ∧ ∀ closing, (c.finish x id o).2 ≠ .ok (some closing)) := by
  unfold finish
  cases hd : c.describe x with
  | none => exact Or.inr ⟨.refl c, by simp⟩
  | some t =>
    simp only
    split
    · right
      unfold finishStale
      split
      · exact ⟨.refl c, by simp⟩
      · split
        · exact ⟨.refl c, by simp⟩
        · exact ⟨onlyFenced_refuse c _, by simp⟩
    · cases hv : t.validate id with
      | error e => exact Or.inr ⟨onlyFenced_refuse c e, by simp⟩
      | ok u =>
        have hid := Transaction.validate_ok_iff.mp hv
        cases hs : t.stage with
        | ongoing => exact Or.inl ⟨t, rfl, hid, hs, rfl, rfl, rfl⟩
        | empty => exact Or.inr ⟨.refl c, by simp⟩
        | completed became =>
          right
          simp only
          split
          · exact ⟨.refl c, by simp⟩
          · exact ⟨.refl c, by simp⟩

/-- A first request makes an entry under a producer of its own; a later one
moves the entry on to its next identity. -/
theorem init_spec (c : Coordinator) (x : String) (timeout : Span) :
    (c.describe x = none ∧
      (c.init x timeout).1.transactions =
        c.transactions.put x (.fresh x c.next (timeout.min c.maxTimeout)) ∧
      (c.init x timeout).1.next = c.next + 1 ∧
      (c.init x timeout).2 = (⟨c.next, 0⟩, none)) ∨
    (∃ t, c.describe x = some t ∧
      (c.init x timeout).1.transactions =
        c.transactions.put t.txid { t.succeed c.next with timeout := timeout.min c.maxTimeout } ∧
      (c.init x timeout).1.next =
        (if t.identity.epoch = lastEpoch then c.next + 1 else c.next) ∧
      (c.init x timeout).2 = (t.identity.following c.next,
        if t.stage = .ongoing then some (t.complete .abort).2 else none)) := by
  unfold init
  cases hd : c.describe x with
  | none => exact Or.inl ⟨rfl, rfl, rfl, rfl⟩
  | some t =>
    refine Or.inr ⟨t, rfl, ?_⟩
    by_cases hs : t.stage = .ongoing <;>
      simp [hs, keep, Transaction.succeed, Transaction.bump_eq, Transaction.complete]

/-! ### Expiry -/

theorem expireRows_cons (now : Span) (x : String) (t : Transaction)
    (rows : List (String × Transaction)) (next : Int) :
    expireRows now ((x, t) :: rows) next =
      if t.expired now then
        let r := expireRows now rows (if t.identity.epoch = lastEpoch then next + 1 else next)
        ((x, t.succeed next) :: r.1, r.2.1, (t.complete .abort).2 :: r.2.2)
      else
        let r := expireRows now rows next
        ((x, t) :: r.1, r.2.1, r.2.2) := by
  rw [expireRows]
  by_cases h : t.expired now = true
  · have hs := t.stage_of_expired h
    simp only [h, ↓reduceIte, Transaction.bump_eq, Transaction.succeed, hs]
    rfl
  · simp only [h, Bool.false_eq_true, ↓reduceIte]

theorem le_expireRows (now : Span) (rows : List (String × Transaction)) (next : Int) :
    next ≤ (expireRows now rows next).2.1 := by
  induction rows generalizing next with
  | nil => exact Int.le_refl _
  | cons row rows ih =>
    obtain ⟨x, t⟩ := row
    rw [expireRows_cons]
    split
    · have h := ih (if t.identity.epoch = lastEpoch then next + 1 else next)
      simp only
      split at h <;> rename_i he <;> simp only [he, ↓reduceIte] <;> omega
    · exact ih next

theorem expireRows_keys (now : Span) (rows : List (String × Transaction)) (next : Int) :
    (expireRows now rows next).1.map (·.1) = rows.map (·.1) := by
  induction rows generalizing next with
  | nil => rfl
  | cons row rows ih =>
    rw [expireRows_cons]
    split
    · simp only [List.map_cons, ih]
    · simp only [List.map_cons, ih]

/-- Each expired transaction is closed once, in the order of the table. -/
theorem expireRows_closings (now : Span) (rows : List (String × Transaction)) (next : Int) :
    (expireRows now rows next).2.2 =
      (rows.filter (·.2.expired now)).map fun r => (r.2.complete .abort).2 := by
  induction rows generalizing next with
  | nil => rfl
  | cons row rows ih =>
    obtain ⟨x, t⟩ := row
    rw [expireRows_cons]
    by_cases h : t.expired now = true
    · simp only [h, ↓reduceIte, List.filter_cons, List.map_cons, ih]
    · simp only [h, Bool.false_eq_true, ↓reduceIte, List.filter_cons, ih]

theorem find_expireRows_none (now : Span) {x : String} {rows : List (String × Transaction)}
    (h : Table.find x rows = none) (next : Int) :
    Table.find x (expireRows now rows next).1 = none := by
  rw [Table.find_eq_none_iff] at h ⊢
  rwa [expireRows_keys]

/-- A row after expiry: as it was, or under an identity that was made no
earlier than `next`. -/
theorem find_expireRows (now : Span) {x : String} {t : Transaction} :
    ∀ {rows : List (String × Transaction)} (next : Int), Table.find x rows = some t →
      (t.expired now = false ∧ Table.find x (expireRows now rows next).1 = some t) ∨
      (t.expired now = true ∧ ∃ n, next ≤ n ∧
        (t.identity.epoch = lastEpoch → n < (expireRows now rows next).2.1) ∧
        Table.find x (expireRows now rows next).1 = some (t.succeed n))
  | [], _, h => by simp [Table.find] at h
  | (y, u) :: rows, next, h => by
    rw [expireRows_cons]
    by_cases hy : y = x
    · rw [Table.find, if_pos hy, Option.some.injEq] at h
      subst h
      by_cases he : u.expired now = true
      · refine Or.inr ⟨he, next, Int.le_refl _, fun hl => ?_, ?_⟩
        · have hle := le_expireRows now rows (next + 1)
          simp only [he, hl, ↓reduceIte]
          omega
        · simp [he, Table.find, hy]
      · exact Or.inl ⟨by simpa using he, by simp [he, Table.find, hy]⟩
    · rw [Table.find, if_neg hy] at h
      by_cases he : u.expired now = true
      · have ih := find_expireRows now
          (if u.identity.epoch = lastEpoch then next + 1 else next) h
        simp only [he, ↓reduceIte, Table.find, if_neg hy]
        rcases ih with ih | ⟨ht, n, hn, hr⟩
        · exact Or.inl ih
        · refine Or.inr ⟨ht, n, ?_, hr⟩
          split at hn <;> omega
      · have ih := find_expireRows now next h
        simpa only [he, Bool.false_eq_true, ↓reduceIte, Table.find, if_neg hy] using ih

/-- What expiry does to one transactional id. -/
theorem describe_expire (c : Coordinator) (now : Span) {x : String} {t : Transaction}
    (h : c.describe x = some t) :
    (t.expired now = false ∧ (c.expire now).1.describe x = some t) ∨
    (t.expired now = true ∧ ∃ n, c.next ≤ n ∧
      (t.identity.epoch = lastEpoch → n < (c.expire now).1.next) ∧
      (c.expire now).1.describe x = some (t.succeed n)) :=
  find_expireRows now c.next h

theorem describe_expire_none (c : Coordinator) (now : Span) {x : String}
    (h : c.describe x = none) : (c.expire now).1.describe x = none :=
  find_expireRows_none now h c.next

/-! ### One operation, one transactional id -/

/-- What may be asked of the coordinator. -/
inductive Op where
  | init (x : String) (timeout : Span)
  | enroll (now : Span) (x : String) (id : Identity) (ps : List TopicPartition)
  | permit (x : String) (id : Identity) (p : TopicPartition)
  | finish (x : String) (id : Identity) (o : Outcome)
  | expire (now : Span)

def act (c : Coordinator) : Op → Coordinator
  | .init x timeout => (c.init x timeout).1
  | .enroll now x id ps => (c.enroll now x id ps).1
  | .permit x id p => (c.permit x id p).1
  | .finish x id o => (c.finish x id o).1
  | .expire now => (c.expire now).1

/-- What operation `op` may do to the entry of `x`, when it takes new producers
from `lo` up to `hi`. -/
inductive Turn (op : Op) (lo hi : Int) (x : String) :
    Option Transaction → Option Transaction → Prop
  | same (t : Option Transaction) : Turn op lo hi x t t
  | fresh (n : Int) (timeout : Span) (hlo : lo ≤ n) (hhi : n < hi) :
      Turn op lo hi x none (some (.fresh x n timeout))
  | enroll (t : Transaction) (now : Span) (ps : List TopicPartition)
      (h : op = .enroll now x t.identity ps) : Turn op lo hi x (some t) (some (t.enroll now ps))
  | complete (t : Transaction) (o : Outcome) (h : op = .finish x t.identity o)
      (hs : t.stage = .ongoing) : Turn op lo hi x (some t) (some (t.complete o).1)
  | supersede (t : Transaction) (n : Int) (timeout : Span)
      (h : (∃ timeout, op = .init x timeout) ∨ (∃ now, op = .expire now ∧ t.expired now = true))
      (hlo : lo ≤ n) (hhi : t.identity.epoch = lastEpoch → n < hi) :
      Turn op lo hi x (some t) (some { t.succeed n with timeout := timeout })

/-- Entries are kept under their own name. -/
def Named (c : Coordinator) : Prop := ∀ x t, c.describe x = some t → t.txid = x

theorem describe_put {c c' : Coordinator} {y : String} {u : Transaction}
    (h : c'.transactions = c.transactions.put y u) (x : String) :
    c'.describe x = if y = x then some u else c.describe x := by
  unfold describe
  rw [h, Table.get?_put]

theorem next_le_act (c : Coordinator) (op : Op) : c.next ≤ (c.act op).next := by
  cases op with
  | init x timeout =>
    rcases init_spec c x timeout with ⟨-, -, h, -⟩ | ⟨t, -, -, h, -⟩
    · rw [act, h]
      omega
    · rw [act, h]
      split <;> omega
  | enroll now x id ps =>
    rcases enroll_spec c now x id ps with ⟨t, -, -, -, -, h⟩ | ⟨e, -, -, h⟩
    · exact Int.le_of_eq h.symm
    · exact Int.le_of_eq h.next.symm
  | permit x id p => exact Int.le_of_eq (permit_spec c x id p).1.next.symm
  | finish x id o =>
    rcases finish_spec c x id o with ⟨t, -, -, -, -, -, h⟩ | ⟨h, -⟩
    · exact Int.le_of_eq h.symm
    · exact Int.le_of_eq h.next.symm
  | expire now => exact le_expireRows now c.transactions.rows c.next

/-- **Every operation gives every entry one of five turns.** -/
theorem turn (h : c.Named) (op : Op) (x : String) :
    Turn op c.next (c.act op).next x (c.describe x) ((c.act op).describe x) := by
  -- where the operation writes the entry of `y`, the other entries keep theirs
  have other : ∀ {y : String} {u : Transaction}, (c.act op).transactions = c.transactions.put y u →
      y ≠ x → Turn op c.next (c.act op).next x (c.describe x) ((c.act op).describe x) := by
    intro y u hput hne
    rw [describe_put hput, if_neg hne]
    exact .same _
  cases op with
  | init y timeout =>
    rcases init_spec c y timeout with ⟨hd, hput, hn, -⟩ | ⟨t, hd, hput, hn, -⟩
    · by_cases hne : y = x
      · subst hne
        rw [act, describe_put hput, if_pos rfl, hd]
        exact .fresh _ _ (Int.le_refl _) (by rw [hn]; omega)
      · exact other hput hne
    · have hx := h y t hd
      by_cases hne : y = x
      · subst hne
        rw [act, describe_put hput, if_pos hx, hd]
        refine .supersede t _ _ (Or.inl ⟨_, rfl⟩) (Int.le_refl _) fun he => ?_
        rw [hn, if_pos he]
        omega
      · exact other hput (hx ▸ hne)
  | enroll now y id ps =>
    rcases enroll_spec c now y id ps with ⟨t, hd, rfl, -, hput, -⟩ | ⟨e, -, -, hf⟩
    · have hx := h y t hd
      by_cases hne : y = x
      · subst hne
        rw [act, describe_put hput, if_pos hx, hd]
        exact .enroll t now ps rfl
      · exact other hput (hx ▸ hne)
    · rw [act, hf.describe]
      exact .same _
  | permit y id p =>
    rw [act, (permit_spec c y id p).1.describe]
    exact .same _
  | finish y id o =>
    rcases finish_spec c y id o with ⟨t, hd, rfl, hs, -, hput, -⟩ | ⟨hf, -⟩
    · have hx := h y t hd
      by_cases hne : y = x
      · subst hne
        rw [act, describe_put hput, if_pos hx, hd]
        exact .complete t o rfl hs
      · exact other hput (hx ▸ hne)
    · rw [act, hf.describe]
      exact .same _
  | expire now =>
    cases hd : c.describe x with
    | none =>
      rw [act, describe_expire_none c now hd]
      exact .same _
    | some t =>
      rcases describe_expire c now hd with ⟨-, hx⟩ | ⟨he, n, hlo, hhi, hx⟩
      · rw [act, hx]
        exact .same _
      · rw [act, hx]
        exact .supersede t n (t.succeed n).timeout (Or.inr ⟨now, rfl, he⟩) hlo hhi

end Coordinator
end FencedLog
