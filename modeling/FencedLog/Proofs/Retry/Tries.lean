/-
# How often an operation is tried

The tries end with the first outcome that settles the matter: a success, or an
error that will not go away. If there is none among as many tries as the policy
allows, they end with the last of these. Between two tries there is one wait,
as long as the policy says; chance changes how long the waits are, and nothing
else (`persists`).

That the loop takes the tries in turn, and which one is its last, is said of
every operation (`retryFrom_before`). The calls and the waits are counted in a
record that the operation and the waits keep of themselves (`Act`).

Key definitions: `Retry.Settles`, `Retry.Ends`, `Retry.before`, `Retry.Act`,
`Retry.rounds`.
Key theorems: `Retry.retryFrom_before`, `Retry.retryFrom_answering`,
`Retry.persists`.
-/
import FencedLog.Retry.Loop
import Mathlib.Order.Lattice.Nat

namespace FencedLog
namespace Retry

variable {σ α : Type}

/-! ### Where the tries end -/

/-- An outcome after which there is nothing to be gained by another try. -/
def Settles : Except SessionError α → Prop
  | .ok _ => True
  | .error e => e.errorClass ≠ .retriable

/-- Where tries may end that come out as `outcomes 1`, `outcomes 2` and so on:
at one that settles the matter, or once all retries are spent. -/
def Ends (outcomes : Nat → Except SessionError α) (retries : Nat) : Set Nat :=
  {n | 0 < n ∧ (Settles (outcomes n) ∨ n = retries + 1)}

theorem exists_isLeast_ends (outcomes : Nat → Except SessionError α) (retries : Nat) :
    ∃ k, IsLeast (Ends outcomes retries) k :=
  have hne : (Ends outcomes retries).Nonempty := ⟨retries + 1, Nat.succ_pos _, Or.inr rfl⟩
  ⟨_, Nat.sInf_mem hne, fun _ hn => Nat.sInf_le hn⟩

/-- A delivery error is judged by its own class, not by what it is wrapped in. -/
theorem settles_delivery {e : DeliveryError} :
    Settles (.error (.delivery e) : Except SessionError α) ↔ e.errorClass ≠ .retriable := Iff.rfl

/-! ### The loop, for any operation -/

section Loop

variable {operation : σ → σ × Except SessionError α} {wait : Nat → σ → σ} {s : σ}

/-- An outcome that settles the matter is the last one. -/
theorem retryFrom_of_settles (h : Settles (operation s).2) (attempt left : Nat) :
    retryFrom operation wait attempt left s = operation s := by
  rcases hop : operation s with ⟨t, e | a⟩
  · rw [hop] at h
    exact retryFrom_of_not_retriable hop (decide_eq_false h) attempt left
  · exact retryFrom_of_ok hop attempt left

/-- After any other there is a wait, and another try. -/
theorem retryFrom_of_not_settles (h : ¬Settles (operation s).2) (attempt left : Nat) :
    retryFrom operation wait attempt (left + 1) s =
      retryFrom operation wait (attempt + 1) left (wait attempt (operation s).1) := by
  rcases hop : operation s with ⟨t, e | a⟩
  · rw [hop] at h
    exact retryFrom_succ_of_retriable hop (decide_eq_true (not_not.mp h)) attempt left
  · rw [hop] at h
    exact absurd trivial h

variable (operation wait s) in
/-- The state before try number `n`, counted from zero, if none before it has
settled the matter. -/
def before : Nat → σ
  | 0 => s
  | n + 1 => wait n (operation (before n)).1

/-- From try number `attempt` on, the loop passes over `n` tries that settle
nothing, and ends with the next if that one settles the matter or has no retry
left. -/
theorem retryFrom_before : ∀ n attempt left : Nat, n ≤ left →
    (∀ i < n, ¬Settles (operation (before operation wait s (attempt + i))).2) →
    Settles (operation (before operation wait s (attempt + n))).2 ∨ n = left →
    retryFrom operation wait attempt left (before operation wait s attempt) =
      operation (before operation wait s (attempt + n))
  | 0, attempt, left, _, _, hlast => by
    rcases hlast with h | rfl
    · exact retryFrom_of_settles h attempt left
    · rfl
  | n + 1, attempt, 0, hle, _, _ => absurd hle (Nat.not_succ_le_zero n)
  | n + 1, attempt, left + 1, hle, hpast, hlast => by
    have shift (i : Nat) : attempt + (i + 1) = attempt + 1 + i := by omega
    have hfirst : ¬Settles (operation (before operation wait s attempt)).2 :=
      hpast 0 (Nat.succ_pos n)
    rw [retryFrom_of_not_settles hfirst, shift n]
    refine retryFrom_before n (attempt + 1) left (Nat.le_of_succ_le_succ hle) (fun i hi => ?_) ?_
    · rw [← shift]
      exact hpast (i + 1) (Nat.succ_lt_succ hi)
    · rw [← shift]
      exact hlast.imp_right Nat.succ.inj

end Loop

/-! ### Calls and waits -/

/-- What happens while an operation is tried. -/
inductive Act where
  | call
  | pause (span : Span)
deriving DecidableEq

/-- How often the operation was called. -/
def calls (acts : List Act) : Nat := acts.count .call

/-- How long a wait is. -/
def Act.span? : Act → Option Span
  | .call => none
  | .pause span => some span

/-- The waits, in order. -/
def pauses (acts : List Act) : List Span := acts.filterMap Act.span?

/-- An operation whose calls come out as `outcomes 1`, `outcomes 2` and so on. -/
def answering (outcomes : Nat → Except SessionError α) (acts : List Act) :
    List Act × Except SessionError α :=
  (acts ++ [.call], outcomes (calls acts + 1))

def pausing (span : Span) (acts : List Act) : List Act := acts ++ [.pause span]

@[simp]
theorem calls_append_call (acts : List Act) : calls (acts ++ [.call]) = calls acts + 1 := by
  simp [calls]

@[simp]
theorem pauses_append_call (acts : List Act) : pauses (acts ++ [.call]) = pauses acts := by
  simp [pauses, Act.span?]

/-- As many calls, each with the wait after it. -/
def rounds (span : Nat → Span) (n : Nat) : List Act :=
  (List.range n).flatMap fun i => [.call, .pause (span i)]

theorem rounds_succ (span : Nat → Span) (n : Nat) :
    rounds span (n + 1) = rounds span n ++ [.call, .pause (span n)] := by
  simp [rounds, List.range_succ]

@[simp]
theorem calls_rounds (span : Nat → Span) (n : Nat) : calls (rounds span n) = n := by
  induction n with
  | zero => rfl
  | succ n ih => simpa [rounds_succ, calls] using ih

@[simp]
theorem pauses_rounds (span : Nat → Span) (n : Nat) :
    pauses (rounds span n) = (List.range n).map span := by
  induction n with
  | zero => rfl
  | succ n ih =>
    rw [rounds_succ, pauses, List.filterMap_append, ← pauses, ih, List.range_succ, List.map_append]
    rfl

theorem before_answering (outcomes : Nat → Except SessionError α) (span : Nat → Span) :
    ∀ n, before (answering outcomes) (fun i => pausing (span i)) [] n = rounds span n
  | 0 => rfl
  | n + 1 => by
    rw [before, before_answering outcomes span n, rounds_succ]
    simp [answering, pausing]

/-- Whatever the waits, the loop makes `k` calls and returns the last outcome,
if `k` is the first place where the tries may end. -/
theorem retryFrom_answering {outcomes : Nat → Except SessionError α} {retries k : Nat}
    (hk : IsLeast (Ends outcomes retries) k) (span : Nat → Span) :
    retryFrom (answering outcomes) (fun i => pausing (span i)) 0 retries [] =
      (rounds span (k - 1) ++ [.call], outcomes k) := by
  obtain ⟨⟨hpos, hend⟩, hleast⟩ := hk
  have hle : k ≤ retries + 1 := hleast ⟨Nat.succ_pos _, Or.inr rfl⟩
  have hsucc : k - 1 + 1 = k := Nat.sub_add_cancel hpos
  have outcome (n : Nat) : (answering outcomes (before (answering outcomes)
      (fun i => pausing (span i)) [] (0 + n))).2 = outcomes (n + 1) := by
    rw [Nat.zero_add, before_answering, answering, calls_rounds]
  have past : ∀ i < k - 1, ¬Settles (answering outcomes (before (answering outcomes)
      (fun i => pausing (span i)) [] (0 + i))).2 := by
    intro i hi hs
    rw [outcome] at hs
    -- the tries could have ended there, and `k` is the first such place
    have hki : k ≤ i + 1 := hleast ⟨Nat.succ_pos i, Or.inl hs⟩
    omega
  have last : Settles (answering outcomes (before (answering outcomes)
      (fun i => pausing (span i)) [] (0 + (k - 1)))).2 ∨ k - 1 = retries := by
    rw [outcome, hsucc]
    exact hend.imp_right fun h => by omega
  calc retryFrom (answering outcomes) (fun i => pausing (span i)) 0 retries []
      = answering outcomes (before (answering outcomes) (fun i => pausing (span i)) []
          (0 + (k - 1))) := retryFrom_before (k - 1) 0 retries (by omega) past last
    _ = answering outcomes (rounds span (k - 1)) := by rw [Nat.zero_add, before_answering]
    _ = (rounds span (k - 1) ++ [.call], outcomes k) := by rw [answering, calls_rounds, hsucc]

/-- **An operation is tried until the matter is settled, or the retries are
spent.** -/
theorem persists (p : RetryPolicy) (outcomes : Nat → Except SessionError α) :
    ∃ k, IsLeast (Ends outcomes p.maxRetries) k ∧
      (∃ acts, retry p (answering outcomes) pausing [] = (acts, outcomes k) ∧
        acts = rounds p.backoff (k - 1) ++ [.call] ∧ calls acts = k ∧
        pauses acts = (List.range (k - 1)).map p.backoff ∧ ∀ span ∈ pauses acts, span ≤ p.longest) ∧
      (∀ share, ∃ acts, retryJittered p share (answering outcomes) pausing [] = (acts, outcomes k) ∧
        calls acts = k ∧ (pauses acts).length = k - 1) ∧
      ∀ e : DeliveryError, Settles (.error (.delivery e) : Except SessionError α) ↔
        e.errorClass ≠ .retriable := by
  obtain ⟨k, hk⟩ := exists_isLeast_ends outcomes p.maxRetries
  have hsucc : k - 1 + 1 = k := Nat.sub_add_cancel hk.1.1
  have hcalls (span : Nat → Span) : calls (rounds span (k - 1) ++ [.call]) = k := by
    rw [calls_append_call, calls_rounds, hsucc]
  have hpauses (span : Nat → Span) :
      pauses (rounds span (k - 1) ++ [.call]) = (List.range (k - 1)).map span := by
    rw [pauses_append_call, pauses_rounds]
  refine ⟨k, hk, ⟨_, retryFrom_answering hk p.backoff, rfl, hcalls _, hpauses _, ?_⟩, fun share => ?_,
    fun e => settles_delivery⟩
  · intro span hspan
    rw [hpauses] at hspan
    obtain ⟨i, -, rfl⟩ := List.mem_map.mp hspan
    exact p.backoff_le i
  · refine ⟨_, retryFrom_answering hk fun i => p.jittered (share i) i, hcalls _, ?_⟩
    rw [hpauses, List.length_map, List.length_range]

end Retry
end FencedLog
