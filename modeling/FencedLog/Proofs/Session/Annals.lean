/-
# The calls that have led a session where it stands

The annals of a session are its calls that have returned, each with where the
session stood when it was called and with what it returned. They explain where
the session stands (`Standing.Explained`): one call has given it its identity,
a call that resumed is the one from which it inherits a transaction, until a
call ends that, and the transactions that it has counted are the calls that
ended one.

Key definitions: `Past`, `Annals`, `Annals.run`, `Standing.Inherits`,
`Standing.Explained`.
Key theorems: `Standing.inherits_append`, `Standing.Explained.append`,
`Standing.Explained.acquire`, `Standing.Explained.conclude`.
-/
import FencedLog.Proofs.Session.Restored

namespace FencedLog

open Stance

/-! ### What a session has been through -/

/-- The end that the operation makes to a transaction. -/
def Operation.outcome? : Operation → Option Outcome
  | .finish o => some o
  | _ => none

/-- What a refusal of the operation calls it. -/
def Operation.title : Operation → String
  | .init => "initialize"
  | .resume .. | .resumeFrom _ => "resume"
  | .begin => "begin_transaction"
  | .send .. => "send"
  | .flush => "flush"
  | .finish .commit => "commit_transaction"
  | .finish .abort => "abort_transaction"
  | .listing _ => "partitions_for"
  | .close => "close"

/-- A call that has returned. -/
structure Past where
  operation : Operation
  /-- Where the session stood when it was called. -/
  before : Standing
  result : Except SessionError Report

namespace Past

/-- It has given the session an identity. -/
def acquired (c : Past) : Bool := c.operation.acquires && c.result.isOk

/-- The identity may have left a transaction open. -/
def resumed (c : Past) : Bool := c.operation.resumed?.isSome && c.result.isOk

/-- It has committed or aborted, be it nothing at all. -/
def finished (c : Past) : Bool := c.operation.outcome?.isSome && c.result.isOk

/-- It has ended a transaction that the session had begun or inherited. -/
def concluded (o : Outcome) (c : Past) : Bool :=
  c.operation.outcome? == some o && c.result.isOk &&
    (c.before.lifecycle == .inTransaction || c.before.lifecycle == .ready && c.before.inherited)

end Past

/-- The call that runs, and those that have returned. -/
structure Annals where
  running : Option (Operation × Standing)
  past : List Past

namespace Annals

def empty : Annals := ⟨none, []⟩

/-- One effect of the session. -/
def feel (a : Annals) : Effect → Annals
  | .returned r =>
    match a.running with
    | some (op, v) => ⟨none, a.past ++ [⟨op, v, r⟩]⟩
    | none => a
  | .asked _ | .deed _ | .disconnected => a

/-- The owner makes a call, unless one is running. -/
def called (a : Annals) (s : Session) : Event → Annals
  | .called op =>
    match s.wait with
    | .nothing => { a with running := some (op, s.standing) }
    | _ => a
  | _ => a

/-- One event of the session. -/
def step (a : Annals) (s : Session) (e : Event) : Annals := (s.step e).2.foldl feel (a.called s e)

def run (a : Annals) (s : Session) : List Event → Annals
  | [] => a
  | e :: es => (a.step s e).run (s.step e).1 es

theorem foldl_feel : ∀ (effects : List Effect) (a : Annals), (∀ x, .returned x ∉ effects) →
    effects.foldl feel a = a
  | [], _, _ => rfl
  | x :: effects, a, h => by
    have hx : a.feel x = a := by
      cases x with
      | returned r => exact absurd List.mem_cons_self (h r)
      | _ => rfl
    rw [List.foldl_cons, hx]
    exact foldl_feel effects a fun y hy => h y (List.mem_cons_of_mem x hy)

/-- The running call returns. -/
theorem foldl_returned {a : Annals} {op : Operation} {v : Standing} (hr : a.running = some (op, v))
    {before : List Effect} (hb : ∀ x, .returned x ∉ before) (r : Except SessionError Report) :
    (before ++ [Effect.returned r]).foldl feel a = ⟨none, a.past ++ [⟨op, v, r⟩]⟩ := by
  rw [List.foldl_append, foldl_feel before a hb]
  simp only [List.foldl, feel, hr]

theorem past_called (a : Annals) (s : Session) (e : Event) : (a.called s e).past = a.past := by
  unfold called
  split
  · split <;> rfl
  · rfl

end Annals

/-! ### The calls explain the standing -/

namespace Standing

/-- Some call has resumed an identity, and none has ended a transaction since. -/
def Inherits (past : List Past) : Prop :=
  ∃ before c after, past = before ++ c :: after ∧ c.resumed = true ∧ ∀ d ∈ after, d.finished = false

/-- The calls that have returned explain where the session stands. -/
structure Explained (v : Standing) (past : List Past) : Prop where
  place : v.lifecycle = .uninitialized ∨ v.lifecycle = .ready ∨ v.lifecycle = .inTransaction ∨
    v.lifecycle = .closed
  attached : v.attached = true ↔ v.lifecycle = .ready ∨ v.lifecycle = .inTransaction
  blank : v.lifecycle = .uninitialized → v.identity = none
  acquired : past.countP Past.acquired = if v.identity.isSome then 1 else 0
  inherited : v.inherited = true ↔ Inherits past
  committed : v.committed = past.countP (Past.concluded .commit)
  aborted : v.aborted = past.countP (Past.concluded .abort)

variable {v v' : Standing} {past : List Past} {c : Past}

/-- A call that does not resume says nothing of an inherited transaction,
unless it ends it. -/
theorem inherits_append (hr : c.resumed = false) :
    Inherits (past ++ [c]) ↔ c.finished = false ∧ Inherits past := by
  constructor
  · rintro ⟨before, d, after, hp, hd, ha⟩
    rcases List.eq_nil_or_concat' after with rfl | ⟨after, c', rfl⟩
    · obtain ⟨-, rfl⟩ := List.append_singleton_inj.mp hp
      rw [hr] at hd
      cases hd
    · rw [← List.cons_append, ← List.append_assoc, List.append_singleton_inj] at hp
      obtain ⟨rfl, rfl⟩ := hp
      exact ⟨ha c (by simp), before, d, after, rfl, hd, fun x hx => ha x (by simp [hx])⟩
  · rintro ⟨hf, before, d, after, rfl, hd, ha⟩
    refine ⟨before, d, after ++ [c], by simp, hd, fun x hx => ?_⟩
    rcases List.mem_append.mp hx with hx | hx
    · exact ha x hx
    · rw [List.mem_singleton.mp hx]
      exact hf

theorem inherits_resumed (hr : c.resumed = true) : Inherits (past ++ [c]) :=
  ⟨past, c, [], rfl, hr, fun _ h => nomatch h⟩

theorem acquired_of_resumed (h : c.resumed = true) : c.acquired = true := by
  unfold Past.resumed at h
  unfold Past.acquired
  cases hop : c.operation <;> simp_all [Operation.resumed?, Operation.acquires]

/-- Without an identity nobody has resumed. -/
theorem Explained.not_inherits (h : v.Explained past) (hi : v.identity = none) : ¬ Inherits past := by
  rintro ⟨before, c, after, rfl, hc, -⟩
  have hcount := h.acquired
  rw [hi, if_neg (by simp), List.countP_eq_zero] at hcount
  exact hcount c (by simp) (acquired_of_resumed hc)

/-- A call that takes no identity and ends no transaction. -/
theorem Explained.append (h : v.Explained past) (ha : c.acquired = false)
    (hf : c.finished = false ∨ v.inherited = false)
    (hc : ∀ o, Past.concluded o c = false) : v.Explained (past ++ [c]) where
  place := h.place
  attached := h.attached
  blank := h.blank
  acquired := by rw [List.countP_append, h.acquired, List.countP_singleton, ha]; rfl
  inherited := by
    have hr : c.resumed = false := by
      by_contra hne
      rw [acquired_of_resumed (by simpa using hne)] at ha
      cases ha
    rw [inherits_append hr, h.inherited]
    rcases hf with hf | hf
    · exact (and_iff_right hf).symm
    · have hn : ¬ Inherits past := fun hi => by
        rw [h.inherited.mpr hi] at hf
        cases hf
      exact ⟨fun hi => absurd hi hn, fun hi => absurd hi.2 hn⟩
  committed := by rw [List.countP_append, ← h.committed, List.countP_singleton, hc]; rfl
  aborted := by rw [List.countP_append, ← h.aborted, List.countP_singleton, hc]; rfl

/-- A call that fails explains nothing. -/
theorem Explained.failed (h : v.Explained past) (op : Operation) (before : Standing)
    (err : SessionError) : v.Explained (past ++ [⟨op, before, .error err⟩]) :=
  h.append (by simp [Past.acquired, Except.isOk, Except.toBool])
    (Or.inl (by simp [Past.finished, Except.isOk, Except.toBool]))
    fun o => by simp [Past.concluded, Except.isOk, Except.toBool]

/-- A call that succeeds without a change. -/
theorem Explained.reported (h : v.Explained past) {op : Operation} {before : Standing} (x : Report)
    (ha : op.acquires = false) (hf : ∀ o, op = .finish o → before = v ∧ v.lifecycle = .ready ∧
      v.inherited = false) : v.Explained (past ++ [⟨op, before, .ok x⟩]) := by
  cases hop : op.outcome? with
  | none =>
    exact h.append (by simp [Past.acquired, ha]) (Or.inl (by simp [Past.finished, hop]))
      fun o => by simp [Past.concluded, hop]
  | some o =>
    obtain rfl : op = .finish o := by
      cases op <;> simp_all [Operation.outcome?]
    obtain ⟨rfl, hl, hi⟩ := hf o rfl
    exact h.append (by simp [Past.acquired, ha]) (Or.inr hi)
      fun o => by simp [Past.concluded, hl, hi]

/-- The call that gives the session its identity. -/
theorem Explained.acquire (h : v.Explained past) (hl : v.lifecycle = .uninitialized) {op : Operation}
    {id : Identity} (ho : op = .init ∨ op.resumed? = some id) (before : Standing) :
    Explained
      { v with
        lifecycle := .ready, identity := some id, inherited := op.resumed?.isSome
        attached := true }
      (past ++ [⟨op, before, .ok .done⟩]) := by
  have hi := h.blank hl
  have ha : op.acquires = true := by
    rcases ho with rfl | ho
    · rfl
    · cases op <;> simp_all [Operation.resumed?, Operation.acquires]
  have hc : ∀ o, Past.concluded o ⟨op, before, .ok .done⟩ = false := by
    intro o
    cases op <;> simp_all [Past.concluded, Operation.outcome?, Operation.acquires]
  have hacq : Past.acquired ⟨op, before, .ok .done⟩ = true := by
    simp [Past.acquired, ha, Except.isOk, Except.toBool]
  refine ⟨by simp, by simp, by simp, ?_, ?_, ?_, ?_⟩
  · rw [List.countP_append, h.acquired, hi, List.countP_singleton, hacq]
    rfl
  · cases hr : op.resumed? with
    | some id' =>
      refine iff_of_true rfl (inherits_resumed ?_)
      simp [Past.resumed, hr, Except.isOk, Except.toBool]
    | none =>
      refine iff_of_false (by simp) ?_
      rw [inherits_append (by simp [Past.resumed, hr])]
      exact fun hin => h.not_inherits hi hin.2
  · rw [List.countP_append, ← h.committed, List.countP_singleton, hc]
    rfl
  · rw [List.countP_append, ← h.aborted, List.countP_singleton, hc]
    rfl

/-- The call that begins a transaction. -/
theorem Explained.begin (h : v.Explained past) (hl : v.lifecycle = .ready) (before : Standing) :
    Explained { v with lifecycle := .inTransaction } (past ++ [⟨.begin, before, .ok .done⟩]) := by
  have h' : v.Explained (past ++ [⟨.begin, before, .ok .done⟩]) :=
    h.reported .done rfl (by simp)
  refine ⟨by simp, ?_, by simp, h'.acquired, h'.inherited, h'.committed, h'.aborted⟩
  have hatt := h.attached
  simp only [hl, true_or, iff_true] at hatt
  simp [hatt]

/-- The call that ends a transaction. -/
theorem Explained.conclude (h : v.Explained past) (o : Outcome)
    (hl : v.lifecycle = .inTransaction ∨ v.lifecycle = .ready ∧ v.inherited = true) :
    Explained (v.conclude o) (past ++ [⟨.finish o, v, .ok .done⟩]) := by
  have hatt : v.attached = true := h.attached.mpr (by tauto)
  have hc : ∀ o', Past.concluded o' ⟨.finish o, v, .ok .done⟩ = decide (o = o') := by
    intro o'
    rcases hl with hl | ⟨hl, hi⟩
    · by_cases ho : o = o' <;> simp [Past.concluded, Operation.outcome?, Except.isOk, Except.toBool, hl, ho]
    · by_cases ho : o = o' <;>
        simp [Past.concluded, Operation.outcome?, Except.isOk, Except.toBool, hl, hi, ho]
  have hinh : ¬ Inherits (past ++ [⟨.finish o, v, .ok .done⟩]) := by
    rw [inherits_append (by simp [Past.resumed, Operation.resumed?])]
    exact fun hin => by simp [Past.finished, Operation.outcome?, Except.isOk, Except.toBool] at hin
  have hcount : (past ++ [Past.mk (.finish o) v (.ok .done)]).countP Past.acquired =
      if v.identity.isSome then 1 else 0 := by
    rw [List.countP_append, h.acquired, List.countP_singleton,
      show Past.acquired (.mk (.finish o) v (.ok .done)) = false from rfl]
    rfl
  cases o <;>
    exact {
      place := by simp [Standing.conclude]
      attached := by simp [Standing.conclude, hatt]
      blank := by simp [Standing.conclude]
      acquired := hcount
      inherited := iff_of_false (by simp [Standing.conclude]) hinh
      committed := by
        rw [List.countP_append, ← h.committed, List.countP_singleton, hc]
        rfl
      aborted := by
        rw [List.countP_append, ← h.aborted, List.countP_singleton, hc]
        rfl }

/-- The session is being closed, and cannot reach its worker any more. -/
theorem Explained.close (h : v.Explained past) :
    Explained { v with lifecycle := .closed, attached := false } past :=
  ⟨by simp, by simp, by simp, h.acquired, h.inherited, h.committed, h.aborted⟩

end Standing
end FencedLog
