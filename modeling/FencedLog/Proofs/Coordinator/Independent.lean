/-
# Transactional ids do not interfere

A request reads the entry of the transactional id that it names, and the next
producer only where it takes one. It writes no other entry; all else that it
does is to move the counters and to take producers (`Change`). So two requests
that name different transactional ids may change places: each is answered as if
the other had not been made, and the coordinator ends up the same
(`independent_run`). Two requests that both take a producer are the exception,
for they take their numbers in order.

Key definitions: `Coordinator.Op.txid?`, `Coordinator.respond`,
`Coordinator.Allocates`, `Coordinator.Change`, `Coordinator.ruling`,
`Coordinator.Independent`.
Key theorems: `Coordinator.act_ruling`, `Coordinator.rules_ruling`,
`Coordinator.ruling_act`, `Coordinator.Change.apply_comm`,
`Coordinator.independent_run`.
-/
import FencedLog.Proofs.Coordinator.Tally

namespace FencedLog

/-! ### Two writes -/

theorem Table.write_comm {κ ν : Type} [DecidableEq κ] {k j : κ} (h : k ≠ j) (v w : ν) :
    ∀ {rows : List (κ × ν)}, k ∈ rows.map (·.1) ∨ j ∈ rows.map (·.1) →
      write j w (write k v rows) = write k v (write j w rows)
  | [], hm => by simp at hm
  | (k', v') :: rows, hm => by
    by_cases hk : k' = k
    · subst hk
      simp [write, h]
    · by_cases hj : k' = j
      · subst hj
        simp [write, hk]
      · have hm' : k ∈ rows.map (·.1) ∨ j ∈ rows.map (·.1) := by
          simpa [Ne.symm hk, Ne.symm hj] using hm
        simp [write, hk, hj, write_comm h v w hm']

/-- Writes of different keys change places, unless both make a row. -/
theorem Table.put_comm {κ ν : Type} [DecidableEq κ] (t : Table κ ν) {k j : κ} (h : k ≠ j)
    (v w : ν) (hm : k ∈ t.keys ∨ j ∈ t.keys) : (t.put k v).put j w = (t.put j w).put k v :=
  congrArg Table.mk (write_comm h v w hm)

/-- The number of a new producer matters after the last epoch only. -/
theorem Transaction.succeed_congr {t : Transaction} (h : t.identity.epoch ≠ lastEpoch) (n m : Int) :
    t.succeed n = t.succeed m := by
  unfold succeed
  rw [bump_eq, bump_eq]
  by_cases hs : t.stage = .ongoing <;> simp [hs, complete, Identity.following, h]

namespace Coordinator

/-! ### Requests -/

/-- The transactional id that a request names; expiry names none. -/
def Op.txid? : Op → Option String
  | .init x _ => some x
  | .enroll _ x _ _ => some x
  | .permit x _ _ => some x
  | .finish x _ _ => some x
  | .expire _ => none

/-- What an operation is answered. -/
inductive Response where
  | identity (id : Identity) (aborted : Option Closing)
  | verdict (r : Except BrokerError Unit)
  | ended (r : Except BrokerError (Option Closing))
  | expired (closings : List Closing)

def respond (c : Coordinator) : Op → Response
  | .init x timeout => .identity (c.init x timeout).2.1 (c.init x timeout).2.2
  | .enroll now x id ps => .verdict (c.enroll now x id ps).2
  | .permit x id p => .verdict (c.permit x id p).2
  | .finish x id o => .ended (c.finish x id o).2
  | .expire now => .expired (c.expire now).2

/-- The request takes a producer: its transactional id is new, or has come to
the last epoch. -/
def Allocates (c : Coordinator) : Op → Prop
  | .init x _ => c.describe x = none ∨ ∃ t, c.describe x = some t ∧ t.identity.epoch = lastEpoch
  | _ => False

/-! ### What a request changes -/

/-- What a request changes: one entry at most, and the counters. -/
structure Change where
  entry : Option Transaction
  /-- How many producers it takes. -/
  taken : Int
  known : Nat
  started : Nat
  committed : Nat
  aborted : Nat
  fenced : Nat

namespace Change

def none : Change := ⟨.none, 0, 0, 0, 0, 0, 0⟩

/-- A refusal is counted if it is by a newer epoch. -/
def refused : BrokerError → Change
  | .fenced .. => { none with fenced := 1 }
  | _ => none

/-- The transaction has ended. -/
def ended (t : Transaction) : Outcome → Change
  | .commit => { none with entry := some t, committed := 1 }
  | .abort => { none with entry := some t, aborted := 1 }

def count (v : Change) (t : Tally) : Tally where
  known := t.known + v.known
  ongoing := t.ongoing + v.started - (v.committed + v.aborted)
  committed := t.committed + v.committed
  aborted := t.aborted + v.aborted
  expired := t.expired
  fenced := t.fenced + v.fenced

def write (v : Change) (table : Table String Transaction) : Table String Transaction :=
  match v.entry with
  | .none => table
  | some t => table.put t.txid t

def apply (v : Change) (c : Coordinator) : Coordinator :=
  { c with transactions := v.write c.transactions, next := c.next + v.taken,
           tally := v.count c.tally }

@[simp] theorem apply_none (c : Coordinator) : none.apply c = c := by
  simp [apply, write, none, count]

theorem apply_refused {α : Type} (e : BrokerError) (c : Coordinator) :
    (refused e).apply c = (c.refuse (α := α) e).1 := by
  cases e <;> simp [refused, refuse, apply, write, none, count]

/-- Changes of different entries change places, unless both entries are new. No
counter is taken below zero. -/
theorem apply_comm {v w : Change} {c : Coordinator}
    (hentry : ∀ t u, v.entry = some t → w.entry = some u → t.txid ≠ u.txid ∧
      (t.txid ∈ c.transactions.keys ∨ u.txid ∈ c.transactions.keys))
    (hv : v.committed + v.aborted ≤ c.tally.ongoing)
    (hw : w.committed + w.aborted ≤ c.tally.ongoing) :
    w.apply (v.apply c) = v.apply (w.apply c) := by
  have htable : w.write (v.write c.transactions) = v.write (w.write c.transactions) := by
    unfold write
    cases hve : v.entry with
    | none => rfl
    | some t =>
      cases hwe : w.entry with
      | none => rfl
      | some u =>
        obtain ⟨hne, hm⟩ := hentry t u hve hwe
        exact Table.put_comm c.transactions hne t u hm
  have htally : w.count (v.count c.tally) = v.count (w.count c.tally) := by
    simp only [count, Tally.mk.injEq, true_and]
    omega
  have hnext : c.next + v.taken + w.taken = c.next + w.taken + v.taken := by omega
  simp only [apply, htable, htally, hnext]

end Change

/-! ### A request looks at its own entry -/

/-- Whether the identity is that of the entry. -/
def vet (x : String) (id : Identity) : Option Transaction → Except BrokerError Transaction
  | none => .error (.unmappedProducer x id.producer)
  | some t => (t.validate id).map fun _ => t

/-- What becomes of a request for a new identity. -/
def initRuling (x : String) (timeout : Span) (next : Int) : Option Transaction → Change × Response
  | none => ({ Change.none with entry := some (.fresh x next timeout), taken := 1, known := 1 },
      .identity ⟨next, 0⟩ none)
  | some t => ({ Change.none with
        entry := some { t.succeed next with timeout := timeout }
        taken := if t.identity.epoch = lastEpoch then 1 else 0
        aborted := if t.stage = .ongoing then 1 else 0 },
      .identity (t.identity.following next)
        (if t.stage = .ongoing then some (t.complete .abort).2 else none))

/-- What becomes of an entry's transaction when its end is asked for. -/
def finishRuling (t : Transaction) (id : Identity) (o : Outcome) :
    Change × Except BrokerError (Option Closing) :=
  if id.producer = t.identity.producer ∧ id.epoch < t.identity.epoch then
    match t.outcomes.get? id.epoch with
    | none => (.none, .ok none)
    | some became =>
      if became = o then (.none, .ok none)
      else (.refused (.fenced t.txid id.epoch t.identity.epoch),
        .error (.fenced t.txid id.epoch t.identity.epoch))
  else match t.validate id with
    | .error e => (.refused e, .error e)
    | .ok () =>
      match t.stage with
      | .ongoing => (.ended (t.complete o).1 o, .ok (some (t.complete o).2))
      | .empty => (.none, .ok none)
      | .completed became =>
        if became = o then (.none, .ok none)
        else (.none, .error (.invalidState ("cannot " ++ o.text ++ " transaction in state "
          ++ t.stage.text)))

/-- What a request does and what it is answered, given the entry that it names,
the next producer and the longest timeout. -/
def ruling (entry : Option Transaction) (next : Int) (longest : Span) : Op → Change × Response
  | .init x timeout => initRuling x (timeout.min longest) next entry
  | .enroll now x id ps =>
    match vet x id entry with
    | .error e => (.refused e, .verdict (.error e))
    | .ok t => ({ Change.none with
        entry := some (t.enroll now ps), started := if t.stage = .ongoing then 0 else 1 },
        .verdict (.ok ()))
  | .permit x id p =>
    match vet x id entry with
    | .error e => (.refused e, .verdict (.error e))
    | .ok t => (.none, .verdict (
      if t.stage ≠ .ongoing then
        .error (.invalidState ("produce to " ++ p.text
          ++ " requires an ongoing transaction, state is " ++ t.stage.text))
      else if t.partitions.contains p then .ok ()
      else .error (.invalidState ("partition " ++ p.text
        ++ " is not registered with the transaction"))))
  | .finish x id o =>
    match entry with
    | none => (.none, .ended (.error (.unmappedProducer x id.producer)))
    | some t => ((finishRuling t id o).1, .ended (finishRuling t id o).2)
  | .expire _ => (.none, .expired [])

variable {c : Coordinator} {x y : String} {a b op : Op}

theorem init_ruling (c : Coordinator) (x : String) (timeout : Span) :
    (c.init x timeout).1 = (initRuling x (timeout.min c.maxTimeout) c.next (c.describe x)).1.apply c ∧
      Response.identity (c.init x timeout).2.1 (c.init x timeout).2.2 =
        (initRuling x (timeout.min c.maxTimeout) c.next (c.describe x)).2 := by
  unfold init initRuling
  cases c.describe x with
  | none => exact ⟨rfl, rfl⟩
  | some t =>
    by_cases hs : t.stage = .ongoing <;> by_cases hl : t.identity.epoch = lastEpoch <;>
      simp [hs, hl, Transaction.bump_eq, Transaction.succeed, Transaction.complete, Change.apply,
        Change.write, Change.count, Change.none, Tally.ended, keep]

theorem enroll_ruling (c : Coordinator) (now : Span) (x : String) (id : Identity)
    (ps : List TopicPartition) :
    (c.enroll now x id ps).1 =
        (ruling (c.describe x) c.next c.maxTimeout (.enroll now x id ps)).1.apply c ∧
      Response.verdict (c.enroll now x id ps).2 =
        (ruling (c.describe x) c.next c.maxTimeout (.enroll now x id ps)).2 := by
  have hvet : c.authorize x id = vet x id (c.describe x) := rfl
  unfold enroll
  simp only [ruling, hvet]
  cases vet x id (c.describe x) with
  | error e => exact ⟨(Change.apply_refused e c).symm, by rw [refuse_answer]⟩
  | ok t =>
    by_cases hs : t.stage = .ongoing <;>
      simp [hs, Change.apply, Change.write, Change.count, Change.none, keep]

theorem permit_ruling (c : Coordinator) (x : String) (id : Identity) (p : TopicPartition) :
    (c.permit x id p).1 =
        (ruling (c.describe x) c.next c.maxTimeout (.permit x id p)).1.apply c ∧
      Response.verdict (c.permit x id p).2 =
        (ruling (c.describe x) c.next c.maxTimeout (.permit x id p)).2 := by
  have hvet : c.authorize x id = vet x id (c.describe x) := rfl
  unfold permit
  simp only [ruling, hvet]
  cases vet x id (c.describe x) with
  | error e => exact ⟨(Change.apply_refused e c).symm, by rw [refuse_answer]⟩
  | ok t =>
    by_cases hs : t.stage = .ongoing
    · by_cases hp : p ∈ t.partitions <;> simp [hs, hp]
    · simp [hs]

theorem finish_ruling (c : Coordinator) (x : String) (id : Identity) (o : Outcome) :
    (c.finish x id o).1 =
        (ruling (c.describe x) c.next c.maxTimeout (.finish x id o)).1.apply c ∧
      Response.ended (c.finish x id o).2 =
        (ruling (c.describe x) c.next c.maxTimeout (.finish x id o)).2 := by
  unfold finish
  simp only [ruling]
  cases c.describe x with
  | none => exact ⟨(Change.apply_none c).symm, rfl⟩
  | some t =>
    simp only [finishRuling]
    split
    · unfold finishStale
      cases t.outcomes.get? id.epoch with
      | none => simp
      | some became =>
        by_cases hb : became = o
        · simp [hb]
        · simp [hb, Change.apply_refused (α := Option Closing)]
    · cases t.validate id with
      | error e => simp [Change.apply_refused (α := Option Closing)]
      | ok u =>
        cases hs : t.stage with
        | ongoing =>
          cases o <;> simp [Change.ended, Change.apply, Change.write, Change.count, Change.none,
            Tally.ended, keep]
        | empty => simp
        | completed became => by_cases hb : became = o <;> simp [hb]

/-- **A request is ruled on by the entry that it names.** -/
theorem act_ruling (h : op.txid? = some x) :
    c.act op = (ruling (c.describe x) c.next c.maxTimeout op).1.apply c ∧
      c.respond op = (ruling (c.describe x) c.next c.maxTimeout op).2 := by
  cases op with
  | init y timeout =>
    obtain rfl := Option.some.inj h
    exact init_ruling c y timeout
  | enroll now y id ps =>
    obtain rfl := Option.some.inj h
    exact enroll_ruling c now y id ps
  | permit y id p =>
    obtain rfl := Option.some.inj h
    exact permit_ruling c y id p
  | finish y id o =>
    obtain rfl := Option.some.inj h
    exact finish_ruling c y id o
  | expire now => cases h

/-- What a request may do, by the entry that it names and the next producer. -/
inductive Rules (t? : Option Transaction) (next : Int) : Op → Change → Prop
  | nothing (op : Op) : Rules t? next op .none
  | refused (op : Op) (e : BrokerError) : Rules t? next op (.refused e)
  | fresh (x : String) (timeout timeout' : Span) (h : t? = none) :
      Rules t? next (.init x timeout) { Change.none with
        entry := some (.fresh x next timeout'), taken := 1, known := 1 }
  | supersede (t : Transaction) (x : String) (timeout timeout' : Span) (h : t? = some t) :
      Rules t? next (.init x timeout) { Change.none with
        entry := some { t.succeed next with timeout := timeout' }
        taken := if t.identity.epoch = lastEpoch then 1 else 0
        aborted := if t.stage = .ongoing then 1 else 0 }
  | enroll (t : Transaction) (now : Span) (x : String) (id : Identity) (ps : List TopicPartition)
      (h : t? = some t) : Rules t? next (.enroll now x id ps) { Change.none with
        entry := some (t.enroll now ps), started := if t.stage = .ongoing then 0 else 1 }
  | complete (t : Transaction) (x : String) (id : Identity) (o : Outcome) (h : t? = some t)
      (hs : t.stage = .ongoing) : Rules t? next (.finish x id o) (.ended (t.complete o).1 o)

theorem vet_ok {id : Identity} {t? : Option Transaction} {t : Transaction}
    (h : vet x id t? = .ok t) : t? = some t := by
  cases t? with
  | none => cases h
  | some u =>
    simp only [vet] at h
    cases hv : u.validate id with
    | error e => simp [hv, Except.map] at h
    | ok _ =>
      simp only [hv, Except.map, Except.ok.injEq] at h
      rw [h]

theorem rules_ruling (t? : Option Transaction) (next : Int) (longest : Span) (op : Op) :
    Rules t? next op (ruling t? next longest op).1 := by
  cases op with
  | init x timeout =>
    cases t? with
    | none => exact .fresh x timeout _ rfl
    | some t => exact .supersede t x timeout _ rfl
  | enroll now x id ps =>
    simp only [ruling]
    cases ha : vet x id t? with
    | error e => exact .refused _ e
    | ok t => exact .enroll t now x id ps (vet_ok ha)
  | permit x id p =>
    simp only [ruling]
    cases vet x id t? with
    | error e => exact .refused _ e
    | ok t => exact .nothing _
  | finish x id o =>
    cases t? with
    | none => exact .nothing _
    | some t =>
      simp only [ruling, finishRuling]
      split
      · cases t.outcomes.get? id.epoch with
        | none => exact .nothing _
        | some became =>
          by_cases hb : became = o
          · simp only [hb, ↓reduceIte]
            exact .nothing _
          · simp only [hb, ↓reduceIte]
            exact .refused _ _
      · cases t.validate id with
        | error e => exact .refused _ e
        | ok _ =>
          cases hs : t.stage with
          | ongoing => exact .complete t x id o rfl hs
          | empty => exact .nothing _
          | completed became => by_cases hb : became = o <;> simp only [hb, ↓reduceIte] <;> exact .nothing _
  | expire now => exact .nothing _

section Rules

variable {t? : Option Transaction} {next : Int} {v : Change}

/-- A request writes the entry that it names; a new one has taken a producer. -/
theorem Rules.entry (h : Rules t? next op v) (hx : op.txid? = some x)
    (hname : ∀ t, t? = some t → t.txid = x) {u : Transaction} (hu : v.entry = some u) :
    u.txid = x ∧ (t? = none → ∃ timeout, op = .init x timeout) := by
  cases h with
  | nothing => cases hu
  | refused _ e => cases e <;> cases hu
  | fresh y timeout timeout' _ =>
    obtain rfl := Option.some.inj hx
    obtain rfl := Option.some.inj hu
    exact ⟨rfl, fun _ => ⟨timeout, rfl⟩⟩
  | supersede t y timeout timeout' h =>
    obtain rfl := Option.some.inj hu
    exact ⟨(t.succeed_txid next).trans (hname t h), fun hn => nomatch h.symm.trans hn⟩
  | enroll t now y id ps h =>
    obtain rfl := Option.some.inj hu
    exact ⟨(t.enroll_txid now ps).trans (hname t h), fun hn => nomatch h.symm.trans hn⟩
  | complete t y id o h _ =>
    have hu' : some (t.complete o).1 = some u := by cases o <;> exact hu
    obtain rfl := Option.some.inj hu'
    exact ⟨hname t h, fun hn => nomatch h.symm.trans hn⟩

/-- What ends a transaction finds it ongoing, and ends no other. -/
theorem Rules.ends (h : Rules t? next op v) :
    v.committed + v.aborted = 0 ∨
      (v.committed + v.aborted = 1 ∧ ∃ t, t? = some t ∧ t.stage = .ongoing) := by
  cases h with
  | nothing => exact Or.inl rfl
  | refused _ e => cases e <;> exact Or.inl rfl
  | fresh => exact Or.inl rfl
  | supersede t y timeout timeout' h =>
    by_cases hs : t.stage = .ongoing
    · exact Or.inr ⟨by simp [hs, Change.none], t, h, hs⟩
    · exact Or.inl (by simp [hs, Change.none])
  | enroll => exact Or.inl rfl
  | complete t y id o h hs => exact Or.inr ⟨by cases o <;> rfl, t, h, hs⟩

/-- Only a request for an identity takes a producer, and only if it has to. -/
theorem Rules.taken (h : Rules t? next op v) : v.taken = 0 ∨
    ∃ y timeout, op = .init y timeout ∧ ∀ t, t? = some t → t.identity.epoch = lastEpoch := by
  cases h with
  | nothing => exact Or.inl rfl
  | refused _ e => cases e <;> exact Or.inl rfl
  | fresh y timeout _ h => exact Or.inr ⟨y, timeout, rfl, fun t ht => nomatch h.symm.trans ht⟩
  | supersede t y timeout _ h =>
    by_cases hl : t.identity.epoch = lastEpoch
    · refine Or.inr ⟨y, timeout, rfl, fun u hu => ?_⟩
      rwa [← Option.some.inj (h.symm.trans hu)]
    · exact Or.inl (if_neg hl)
  | enroll => exact Or.inl rfl
  | complete t y id o _ _ => cases o <;> exact Or.inl rfl

end Rules

/-! ### Two requests -/

/-- A request that takes no producer does not look at the next one. -/
theorem ruling_next (hx : op.txid? = some x) (hno : ¬ c.Allocates op) (n : Int) :
    ruling (c.describe x) n c.maxTimeout op = ruling (c.describe x) c.next c.maxTimeout op := by
  cases op with
  | init y timeout =>
    obtain rfl := Option.some.inj hx
    cases hd : c.describe y with
    | none => exact absurd (Or.inl hd) hno
    | some t =>
      have hl : t.identity.epoch ≠ lastEpoch := fun hl => hno (Or.inr ⟨t, hd, hl⟩)
      simp only [ruling, initRuling, Identity.following, if_neg hl,
        Transaction.succeed_congr hl n c.next]
  | enroll | permit | finish | expire => rfl

theorem next_act (hx : op.txid? = some x) (hno : ¬ c.Allocates op) : (c.act op).next = c.next := by
  rw [(act_ruling hx).1]
  show c.next + _ = c.next
  rcases (rules_ruling (c.describe x) c.next c.maxTimeout op).taken with h | ⟨y, timeout, rfl, h⟩
  · omega
  · obtain rfl := Option.some.inj hx
    refine absurd ?_ hno
    cases hd : c.describe y with
    | none => exact Or.inl hd
    | some t => exact Or.inr ⟨t, hd, h t hd⟩

/-- A request leaves the entries that it does not name as they are. -/
theorem describe_act_of_ne (hs : c.Sound) (hx : op.txid? = some x) (hne : x ≠ y) :
    (c.act op).describe y = c.describe y := by
  have hrules := rules_ruling (c.describe x) c.next c.maxTimeout op
  rw [(act_ruling hx).1]
  show ((ruling (c.describe x) c.next c.maxTimeout op).1.write c.transactions).get? y = _
  unfold Change.write
  cases hu : (ruling (c.describe x) c.next c.maxTimeout op).1.entry with
  | none => rfl
  | some u =>
    have hux : u.txid = x := (hrules.entry hx (hs.named x) hu).1
    exact Table.get?_put_of_ne _ (hux ▸ hne) u

/-- What a request is ruled does not depend on a request that names another
transactional id. -/
theorem ruling_act (hs : c.Sound) (ha : a.txid? = some x) (hb : b.txid? = some y) (hne : x ≠ y)
    (hone : ¬ (c.Allocates a ∧ c.Allocates b)) :
    ruling ((c.act a).describe y) (c.act a).next (c.act a).maxTimeout b =
      ruling (c.describe y) c.next c.maxTimeout b := by
  have hmax : (c.act a).maxTimeout = c.maxTimeout := by rw [(act_ruling ha).1]; rfl
  rw [describe_act_of_ne hs ha hne, hmax]
  by_cases hal : c.Allocates b
  · rw [next_act ha fun h => hone ⟨h, hal⟩]
  · exact ruling_next hb hal _

/-- No request takes more off the ongoing transactions than are counted. -/
theorem ends_le_ongoing (hs : c.Sound) (hcount : c.tally.ongoing = c.ongoing) (x : String)
    (op : Op) : (ruling (c.describe x) c.next c.maxTimeout op).1.committed +
      (ruling (c.describe x) c.next c.maxTimeout op).1.aborted ≤ c.tally.ongoing := by
  rcases (rules_ruling (c.describe x) c.next c.maxTimeout op).ends with h | ⟨h, t, hd, ho⟩
  · omega
  · have hpos : 0 < c.ongoing := by
      rw [ongoing_eq hs.keys]
      exact List.countP_pos_iff.mpr ⟨x, mem_keys_iff.mpr ⟨t, hd⟩, busy_iff.mpr ⟨t, hd, ho⟩⟩
    omega

/-- Two requests do not interfere: they may change places, and neither touches
the entry of the other. -/
structure Independent (c : Coordinator) (a b : Op) (x y : String) : Prop where
  state : (c.act a).act b = (c.act b).act a
  first : (c.act b).respond a = c.respond a
  second : (c.act a).respond b = c.respond b
  spared : (c.act a).describe y = c.describe y
  sparing : (c.act b).describe x = c.describe x

theorem independent (hs : c.Sound) (hcount : c.tally.ongoing = c.ongoing)
    (ha : a.txid? = some x) (hb : b.txid? = some y) (hne : x ≠ y)
    (hone : ¬ (c.Allocates a ∧ c.Allocates b)) : c.Independent a b x y := by
  have hab := ruling_act hs ha hb hne hone
  have hba := ruling_act hs hb ha hne.symm fun h => hone ⟨h.2, h.1⟩
  refine ⟨?_, ?_, ?_, describe_act_of_ne hs ha hne, describe_act_of_ne hs hb hne.symm⟩
  · rw [(act_ruling hb).1, hab, (act_ruling ha (c := c.act b)).1, hba, (act_ruling ha).1,
      (act_ruling hb).1]
    refine Change.apply_comm (fun t u ht hu => ?_) (ends_le_ongoing hs hcount x a)
      (ends_le_ongoing hs hcount y b)
    obtain ⟨htx, hnewa⟩ := (rules_ruling _ _ _ _).entry ha (hs.named x) ht
    obtain ⟨huy, hnewb⟩ := (rules_ruling _ _ _ _).entry hb (hs.named y) hu
    rw [htx, huy]
    refine ⟨hne, ?_⟩
    by_contra hno
    obtain ⟨hx, hy⟩ := not_or.mp hno
    -- both entries are new, so both requests take a producer
    have hdx : c.describe x = none := Table.find_eq_none_iff.mpr hx
    have hdy : c.describe y = none := Table.find_eq_none_iff.mpr hy
    obtain ⟨timeout, rfl⟩ := hnewa hdx
    obtain ⟨timeout', rfl⟩ := hnewb hdy
    exact hone ⟨Or.inl hdx, Or.inl hdy⟩
  · rw [(act_ruling ha).2, hba, (act_ruling ha).2]
  · rw [(act_ruling hb).2, hab, (act_ruling hb).2]

/-- **Requests that name different transactional ids do not interfere**, after
every run, unless both take a producer. -/
theorem independent_run (maxTimeout : Span) (ops : List Op) (ha : a.txid? = some x)
    (hb : b.txid? = some y) (hne : x ≠ y) (hone : ¬ (((start maxTimeout).run ops).Allocates a ∧
      ((start maxTimeout).run ops).Allocates b)) :
    ((start maxTimeout).run ops).Independent a b x y := by
  obtain ⟨hs, -, hcounted⟩ := counted_run maxTimeout ops
  exact independent hs hcounted.ongoing ha hb hne hone

/-- A coordinator with one ongoing transaction. -/
def oneOngoing : Coordinator := (start (.ofSecs 60)).run
  [.init "tx" (.ofSecs 10), .enroll .zero "tx" ⟨1000, 0⟩ [⟨"T", 0⟩]]

/-- The transaction is committed, and another transactional id is given its
first identity. -/
theorem independent_run_newcomer :
    Op.txid? (.finish "tx" ⟨1000, 0⟩ .commit) = some "tx" ∧
    Op.txid? (.init "ty" (.ofSecs 10)) = some "ty" ∧ "tx" ≠ "ty" ∧
    ¬ oneOngoing.Allocates (.finish "tx" ⟨1000, 0⟩ .commit) ∧
    oneOngoing.Allocates (.init "ty" (.ofSecs 10)) ∧
    oneOngoing.Independent (.finish "tx" ⟨1000, 0⟩ .commit) (.init "ty" (.ofSecs 10)) "tx" "ty" :=
  have hne : "tx" ≠ "ty" := by decide
  have hno : ¬ oneOngoing.Allocates (.finish "tx" ⟨1000, 0⟩ .commit) := id
  ⟨rfl, rfl, hne, hno, Or.inl rfl,
    independent_run (.ofSecs 60) _ rfl rfl hne fun h => hno h.1⟩

end Coordinator
end FencedLog
