/-
# The ledger of a broker

A log names the producer of a record and not its transaction. The ledger,
kept beside the broker, names the transaction: it counts how often each
transactional id has started one, notes how each transaction ended, and has
the transaction of every entry of every log.

A transaction is open from the operation that started it to the one that ends
it (`open_act_of_open`, `open_of_open_act`), and one that has ended never
opens again (`Kept`).

Key definitions: `Txn`, `Ledger`, `Ledger.advance`, `Chronicle`,
`Chronicle.Open`, `Chronicle.Kept`.
Key theorems: `Chronicle.open_iff`, `Chronicle.open_of_open_act`,
`Chronicle.kept_act`.
-/
import FencedLog.Proofs.Broker.Run

namespace FencedLog

/-- A transaction of the coordinator: its transactional id, the identity it runs
under, and the how many-th of the id it is. -/
structure Txn where
  txid : String
  identity : Identity
  number : Nat
deriving DecidableEq

structure Ledger where
  /-- How many transactions a transactional id has started. -/
  starts : String → Nat
  /-- How a transaction ended. -/
  ended : Txn → Option Outcome
  /-- The transactions of a log's entries: for a record the one it was written
  in, for a marker the one it ends. -/
  tags : TopicPartition → List (Option Txn)

namespace Ledger

def empty : Ledger := ⟨fun _ => 0, fun _ => none, fun _ => []⟩

/-- The ongoing transaction of a transactional id. -/
def current (l : Ledger) (c : Coordinator) (x : String) : Option Txn :=
  match c.describe x with
  | some t => if t.stage = .ongoing then some ⟨x, t.identity, l.starts x⟩ else none
  | none => none

/-- What an operation on the broker adds. A log that comes or goes has no tags. -/
def advance (l : Ledger) (b : Broker) (op : Broker.Op) : Ledger where
  starts := fun x =>
    if l.current b.coordinator x = none ∧ l.current (b.act op).coordinator x ≠ none then
      l.starts x + 1
    else l.starts x
  ended := fun T =>
    if l.current b.coordinator T.txid = some T ∧ l.current (b.act op).coordinator T.txid ≠ some T
    then some op.outcome
    else l.ended T
  tags := fun p =>
    if (b.log? p).isSome ∧ ((b.act op).log? p).isSome then
      l.tags p ++ (b.posts op p).map fun post => post.2.bind (l.current b.coordinator)
    else []

theorem current_eq_some_iff {l : Ledger} {c : Coordinator} {x : String} {T : Txn} :
    l.current c x = some T ↔ c.UnderWay x T.identity ∧ T.txid = x ∧ T.number = l.starts x := by
  unfold current Coordinator.UnderWay
  cases hd : c.describe x with
  | none => simp
  | some t =>
    obtain ⟨y, id, n⟩ := T
    by_cases hs : t.stage = .ongoing
    · simp only [hs, ↓reduceIte, Option.some.injEq, Txn.mk.injEq, exists_eq_left', true_and]
      exact ⟨fun ⟨hy, hid, hn⟩ => ⟨hid, hy.symm, hn.symm⟩,
        fun ⟨hid, hy, hn⟩ => ⟨hy.symm, hid, hn.symm⟩⟩
    · simp [hs]

theorem current_ne_none_iff {l : Ledger} {c : Coordinator} {x : String} :
    l.current c x ≠ none ↔ ∃ id, c.UnderWay x id := by
  rw [Option.ne_none_iff_exists']
  exact ⟨fun ⟨T, hT⟩ => ⟨T.identity, (current_eq_some_iff.mp hT).1⟩,
    fun ⟨id, hid⟩ => ⟨⟨x, id, l.starts x⟩, current_eq_some_iff.mpr ⟨hid, rfl, rfl⟩⟩⟩

end Ledger

/-- A broker and its ledger. -/
structure Chronicle where
  broker : Broker
  ledger : Ledger

namespace Chronicle

def start (config : BrokerConfig) : Chronicle := ⟨.start config, .empty⟩

def act (c : Chronicle) (op : Broker.Op) : Chronicle :=
  ⟨c.broker.act op, c.ledger.advance c.broker op⟩

/-- The chronicle of a list of operations. -/
def run (c : Chronicle) : List Broker.Op → Chronicle
  | [] => c
  | op :: ops => (c.act op).run ops

/-- The transaction is ongoing. -/
def Open (c : Chronicle) (T : Txn) : Prop :=
  c.ledger.current c.broker.coordinator T.txid = some T

instance (c : Chronicle) (T : Txn) : Decidable (c.Open T) :=
  inferInstanceAs (Decidable (_ = _))

variable {c : Chronicle} {op : Broker.Op} {T : Txn}

theorem run_broker (ops : List Broker.Op) : ∀ c : Chronicle,
    (c.run ops).broker = c.broker.run ops := by
  induction ops with
  | nil => exact fun _ => rfl
  | cons op ops ih => exact fun c => ih (c.act op)

/-! ### The open transaction -/

theorem open_iff : c.Open T ↔
    c.broker.coordinator.UnderWay T.txid T.identity ∧ T.number = c.ledger.starts T.txid := by
  rw [Open, Ledger.current_eq_some_iff]
  simp

/-- A transactional id has one open transaction at most. -/
theorem Open.unique {U : Txn} (h : c.Open T) (h' : c.Open U) (hx : T.txid = U.txid) : T = U := by
  unfold Open at h h'
  rw [hx, h'] at h
  exact (Option.some.inj h).symm

theorem starts_act (c : Chronicle) (op : Broker.Op) (x : String) :
    (c.act op).ledger.starts x = c.ledger.starts x ∨
      ((c.act op).ledger.starts x = c.ledger.starts x + 1 ∧
        ∀ id, ¬ c.broker.coordinator.UnderWay x id) := by
  simp only [act, Ledger.advance]
  split
  · rename_i hn
    refine Or.inr ⟨rfl, fun id hid => ?_⟩
    exact Ledger.current_ne_none_iff.mpr ⟨id, hid⟩ hn.1
  · exact Or.inl rfl

theorem starts_le_act (c : Chronicle) (op : Broker.Op) (x : String) :
    c.ledger.starts x ≤ (c.act op).ledger.starts x := by
  rcases starts_act c op x with h | ⟨h, -⟩ <;> omega

theorem starts_of_underWay {x : String} {id : Identity}
    (h : c.broker.coordinator.UnderWay x id) :
    (c.act op).ledger.starts x = c.ledger.starts x := by
  rcases starts_act c op x with h' | ⟨-, hn⟩
  · exact h'
  · exact absurd h (hn id)

/-- An open transaction stays open as long as it is under way. -/
theorem open_act_of_open (h : c.Open T)
    (hw : (c.act op).broker.coordinator.UnderWay T.txid T.identity) : (c.act op).Open T := by
  obtain ⟨hw₀, hn⟩ := open_iff.mp h
  exact open_iff.mpr ⟨hw, hn.trans (starts_of_underWay hw₀).symm⟩

/-- A transaction that is open was open before, or has just been started by
enrolling, and is the next one of its transactional id. -/
theorem open_of_open_act (hs : c.broker.coordinator.Sound) (h : (c.act op).Open T) :
    c.Open T ∨ ((∀ id, ¬ c.broker.coordinator.UnderWay T.txid id) ∧
      T.number = c.ledger.starts T.txid + 1 ∧
      ∃ now ps, op = .request now (.enroll T.txid T.identity ps)) := by
  obtain ⟨hw, hn⟩ := open_iff.mp h
  by_cases hc : ∃ id, c.broker.coordinator.UnderWay T.txid id
  · obtain ⟨id, hid⟩ := hc
    have he := Broker.underWay_identity hs hid hw
    exact Or.inl (open_iff.mpr ⟨he ▸ hid, hn.trans (starts_of_underWay hid)⟩)
  · have hnone : ∀ id, ¬ c.broker.coordinator.UnderWay T.txid id := fun id hid => hc ⟨id, hid⟩
    refine Or.inr ⟨hnone, ?_, ?_⟩
    · rw [hn]
      simp only [act, Ledger.advance]
      have hne : c.ledger.current c.broker.coordinator T.txid = none :=
        Decidable.byContradiction fun hne => hc (Ledger.current_ne_none_iff.mp hne)
      exact if_pos ⟨hne, Ledger.current_ne_none_iff.mpr ⟨_, hw⟩⟩
    · rcases Broker.underWay_act hs hw with hw₀ | he
      · exact absurd hw₀ (hnone _)
      · exact he

/-! ### The ended transactions -/

theorem ended_act (c : Chronicle) (op : Broker.Op) (T : Txn) :
    (c.act op).ledger.ended T =
      if c.Open T ∧ ¬ (c.act op).Open T then some op.outcome else c.ledger.ended T := by
  -- while the transaction is open the count of starts stays
  have hiff : (c.Open T ∧ c.ledger.current (c.broker.act op).coordinator T.txid ≠ some T) ↔
      (c.Open T ∧ ¬ (c.act op).Open T) := by
    refine and_congr_right fun ho => not_congr ?_
    have hst : (c.act op).ledger.starts T.txid = c.ledger.starts T.txid :=
      starts_of_underWay (open_iff.mp ho).1
    rw [open_iff, Ledger.current_eq_some_iff, hst]
    simp [act]
  show (if _ then _ else _) = _
  by_cases h : c.Open T ∧ ¬ (c.act op).Open T
  · rw [if_pos h]
    exact if_pos (hiff.mpr h)
  · rw [if_neg h]
    exact if_neg fun h' => h (hiff.mp h')

/-- An ended transaction is one of those that were started, and is not open. -/
def Kept (c : Chronicle) : Prop :=
  ∀ T o, c.ledger.ended T = some o → T.number ≤ c.ledger.starts T.txid ∧ ¬ c.Open T

theorem kept_start (config : BrokerConfig) : (start config).Kept := fun _ _ h => by
  simp [start, Ledger.empty] at h

theorem kept_act (hs : c.broker.coordinator.Sound) (h : c.Kept) (op : Broker.Op) :
    (c.act op).Kept := by
  intro T o ho
  have hle := starts_le_act c op T.txid
  rw [ended_act] at ho
  split at ho
  · rename_i hc
    have hn := (open_iff.mp hc.1).2
    exact ⟨by omega, hc.2⟩
  · rename_i hc
    obtain ⟨hn, hno⟩ := h T o ho
    refine ⟨by omega, fun hop => ?_⟩
    rcases open_of_open_act hs hop with hop' | ⟨-, hn', -⟩
    · exact hno hop'
    · omega

/-- How a transaction ended never changes. -/
theorem ended_stable (h : c.Kept) {o : Outcome} (ho : c.ledger.ended T = some o)
    (op : Broker.Op) : (c.act op).ledger.ended T = some o := by
  rw [ended_act, if_neg fun hc => (h T o ho).2 hc.1]
  exact ho

/-- The transaction has been started: it is open, or has ended. -/
def Begun (c : Chronicle) (T : Txn) : Prop := c.Open T ∨ ∃ o, c.ledger.ended T = some o

theorem Begun.act (h : c.Begun T) (hk : c.Kept) (op : Broker.Op) : (c.act op).Begun T := by
  rcases h with ho | ⟨o, he⟩
  · by_cases ho' : (c.act op).Open T
    · exact Or.inl ho'
    · exact Or.inr ⟨op.outcome, by rw [ended_act, if_pos ⟨ho, ho'⟩]⟩
  · exact Or.inr ⟨o, ended_stable hk he op⟩

end Chronicle
end FencedLog
