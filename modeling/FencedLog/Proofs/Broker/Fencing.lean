/-
# The broker refuses what the coordinator has superseded

A broker's coordinator goes through a run of its own (`run_coordinator`), so
what holds of runs of the coordinator holds of it: the identities that the
broker answers with are new, and a superseded identity stays superseded. A
request under such an identity leaves every entry of the coordinator and every
log as it is; an enrollment may make topics, and their logs are empty.

Key definitions: `Broker.orders`, `Broker.issued`, `Broker.Fences`,
`Broker.KeepsFences`.
Key theorems: `Broker.run_coordinator`, `Broker.issued_eq`,
`Broker.fences_of_passed`, `Broker.fencing`.
-/
import FencedLog.Proofs.Broker.Run
import FencedLog.Proofs.Coordinator.Fencing

namespace FencedLog
namespace Broker

/-! ### The coordinator's run -/

/-- What the coordinator is asked in a run. -/
def orders (b : Broker) : List Op → List Coordinator.Op
  | [] => []
  | op :: ops => (b.order? op).toList ++ (b.act op).orders ops

theorem run_coordinator (ops : List Op) (b : Broker) :
    (b.run ops).coordinator = b.coordinator.run (b.orders ops) := by
  induction ops generalizing b with
  | nil => rfl
  | cons op ops ih =>
    rw [run, ih, act_coordinator, orders]
    cases b.order? op <;> rfl

/-- The identity that an operation answers with, and for whom. -/
def issue? (b : Broker) : Op → Option (String × Identity)
  | .request now (.init x timeout) =>
    match (b.handle now (.init x timeout)).2 with
    | .ok (.identity id) => some (x, id)
    | _ => none
  | _ => none

/-- The identities that a run answers with, in order. -/
def issued (b : Broker) : List Op → List (String × Identity)
  | [] => []
  | op :: ops => (b.issue? op).toList ++ (b.act op).issued ops

theorem issue?_eq (b : Broker) (op : Op) : b.issue? op = (b.order? op).bind b.coordinator.issue? := by
  cases op with
  | request now q =>
    by_cases ha : b.available = true
    · cases q with
      | enroll x id ps =>
        simp only [issue?, order?, orderOf, ha, ↓reduceIte]
        split <;> rfl
      | append x id p rs =>
        simp only [issue?, order?, orderOf, ha, ↓reduceIte]
        split <;> rfl
      | _ => simp [issue?, order?, orderOf, handle, init, Coordinator.issue?, ha]
    · cases q <;> simp [issue?, order?, handle, ha]
  | _ => rfl

/-- The broker answers with the identities that its coordinator gives out. -/
theorem issued_eq (ops : List Op) (b : Broker) :
    b.issued ops = b.coordinator.issued (b.orders ops) := by
  induction ops generalizing b with
  | nil => rfl
  | cons op ops ih =>
    rw [issued, ih, act_coordinator, issue?_eq, orders]
    cases b.order? op with
    | none => rfl
    | some o => rfl

/-! ### Requests under an earlier identity -/

/-- A request of this transactional id under this identity. -/
def Under (x : String) (id : Identity) : Request → Prop
  | .enroll y id' _ => y = x ∧ id' = id
  | .append y id' _ _ => y = x ∧ id' = id
  | .finish y id' _ => y = x ∧ id' = id
  | .init .. | .listing _ => False

/-- What the broker does with requests under a superseded identity. -/
structure Fences (b : Broker) (x : String) (id : Identity) : Prop where
  coordinator : b.coordinator.Fences x id
  enroll : ∀ now ps, ∃ e, (b.handle now (.enroll x id ps)).2 = .error e
  append : ∀ now p records, ∃ e, (b.handle now (.append x id p records)).2 = .error e
  /-- No request has an effect on an entry of the coordinator or on a log. -/
  inert : ∀ now q, Under x id q → Coordinator.OnlyFenced b.coordinator
    (b.handle now q).1.coordinator ∧ (b.handle now q).1.config = b.config ∧
      ∀ p log, b.log? p = some log → (b.handle now q).1.log? p = some log
  /-- Only an enrollment makes logs, only on demand, and they are empty. -/
  fresh : ∀ now q, Under x id q → ∀ p log, b.log? p = none →
    (b.handle now q).1.log? p = some log →
      log = Log.empty ∧ b.config.autoCreateTopics = true ∧ ∃ ps, q = .enroll x id ps

variable {b : Broker} {x : String} {id : Identity}

theorem onlyFenced_act (h : b.coordinator.Fences x id) (now : Span) {q : Request}
    (hq : Under x id q) : Coordinator.OnlyFenced b.coordinator (b.handle now q).1.coordinator := by
  have hc : (b.handle now q).1.coordinator = _ := act_coordinator b (.request now q)
  rw [hc]
  simp only [order?]
  split
  · cases q with
    | enroll y id' ps =>
      simp only [orderOf]
      split
      · exact h.inert (.enroll now y id' ps) hq
      · exact .refl _
    | append y id' p rs =>
      simp only [orderOf]
      split
      · exact .refl _
      · exact h.inert (.permit y id' p) hq
    | finish y id' o => exact h.inert (.finish y id' o) hq
    | init y timeout => exact hq.elim
    | listing topic => exact hq.elim
  · exact .refl _

/-- An enrollment that the coordinator refuses makes empty logs at most. -/
theorem grown_enroll (b : Broker) (now : Span) (x : String) (id : Identity)
    (ps : List TopicPartition) : (∀ p log, b.log? p = some log →
      (b.enroll now x id ps).1.log? p = some log) ∧
    (∀ p log, b.log? p = none → (b.enroll now x id ps).1.log? p = some log →
      log = Log.empty ∧ b.config.autoCreateTopics = true) ∧
    (b.enroll now x id ps).1.config = b.config := by
  have hg := grown_ensureAll ps b
  -- the coordinator's answer changes no topic
  have htopics : (b.enroll now x id ps).1.topics = (b.ensureAll ps).1.topics := by
    rcases enroll_spec b now x id ps with ⟨e, -, he⟩ | ⟨-, he⟩ <;> rw [he]
  have hlog : ∀ p, (b.enroll now x id ps).1.log? p = (b.ensureAll ps).1.log? p :=
    fun p => log?_eq_of_topics htopics p
  refine ⟨fun p log hl => (hlog p).trans (hg.kept p log hl), fun p log hn hl => ?_, ?_⟩
  · obtain ⟨hauto, hempty⟩ := hg.fresh p log hn ((hlog p).symm.trans hl)
    exact ⟨hempty, hauto⟩
  · rcases enroll_spec b now x id ps with ⟨e, -, he⟩ | ⟨-, he⟩ <;> rw [he] <;> exact hg.config

theorem append_of_passed (h : b.coordinator.Passed x id) (p : TopicPartition)
    (records : List Record) : (∃ e, (b.append x id p records).2 = .error e) ∧
      (b.append x id p records).1.topics = b.topics := by
  rcases append_spec b x id p records with ⟨t, log, hd, hid, -⟩ | ⟨e, he, ht⟩
  · obtain ⟨w, hw, hlt⟩ := h
    rw [hd] at hw
    rw [hid, ← Option.some.inj hw] at hlt
    exact absurd rfl (Identity.ne_of_lt hlt)
  · exact ⟨⟨e, he⟩, ht⟩

theorem finish_of_passed (h : b.coordinator.Passed x id) (o : Outcome) :
    (b.finish x id o).1.topics = b.topics ∧ (b.finish x id o).1.config = b.config := by
  have hne := (Coordinator.finish_of_passed h o).2
  unfold finish
  split
  · exact ⟨rfl, rfl⟩
  · exact ⟨rfl, rfl⟩
  · rename_i c closing he
    exact absurd (by rw [he]) (hne closing)

theorem append_config (b : Broker) (x : String) (id : Identity) (p : TopicPartition)
    (records : List Record) : (b.append x id p records).1.config = b.config := by
  unfold append
  split
  · rfl
  · split
    · rfl
    · simp only
      split
      · exact (same_putLog _ _ _).config
      · rfl

theorem fences_of_passed (hs : b.coordinator.Sound) (h : b.coordinator.Passed x id) :
    b.Fences x id where
  coordinator := Coordinator.fences_of_passed hs h
  enroll := fun now ps => by
    obtain ⟨w, -, -, he, -⟩ := (Coordinator.fences_of_passed hs h).refused
    unfold handle
    split
    · rcases enroll_spec b now x id ps with ⟨e, -, henroll⟩ | ⟨-, henroll⟩ <;>
        simp only [henroll]
      · exact ⟨_, rfl⟩
      · rw [he]
        exact ⟨_, rfl⟩
    · exact ⟨_, rfl⟩
  append := fun now p records => by
    unfold handle
    split
    · exact (append_of_passed h p records).1
    · exact ⟨_, rfl⟩
  inert := fun now q hq => by
    refine ⟨onlyFenced_act (Coordinator.fences_of_passed hs h) now hq, ?_⟩
    unfold handle
    split
    · cases q with
      | enroll y id' ps =>
        obtain ⟨hkept, -, hconfig⟩ := grown_enroll b now y id' ps
        exact ⟨hconfig, hkept⟩
      | append y id' p rs =>
        obtain ⟨rfl, rfl⟩ := hq
        exact ⟨append_config b y id' p rs,
          fun q log hl => (log?_eq_of_topics (append_of_passed h p rs).2 q).trans hl⟩
      | finish y id' o =>
        obtain ⟨rfl, rfl⟩ := hq
        exact ⟨(finish_of_passed h o).2,
          fun q log hl => (log?_eq_of_topics (finish_of_passed h o).1 q).trans hl⟩
      | init y timeout => exact hq.elim
      | listing topic => exact hq.elim
    · exact ⟨rfl, fun _ _ hl => hl⟩
  fresh := fun now q hq p log hn hl => by
    unfold handle at hl
    split at hl
    · cases q with
      | enroll y id' ps =>
        obtain ⟨rfl, rfl⟩ := hq
        obtain ⟨-, hfresh, -⟩ := grown_enroll b now y id' ps
        obtain ⟨hempty, hauto⟩ := hfresh p log hn hl
        exact ⟨hempty, hauto, ps, rfl⟩
      | append y id' p' rs =>
        obtain ⟨rfl, rfl⟩ := hq
        rw [log?_eq_of_topics (append_of_passed h p' rs).2, hn] at hl
        cases hl
      | finish y id' o =>
        obtain ⟨rfl, rfl⟩ := hq
        rw [log?_eq_of_topics (finish_of_passed h o).1, hn] at hl
        cases hl
      | init y timeout => exact hq.elim
      | listing topic => exact hq.elim
    · rw [hn] at hl
      cases hl

/-! ### Over a run -/

/-- What a run keeps: identities are new when they are answered, and one that
was superseded on the way is fenced at the end. -/
structure KeepsFences (b : Broker) (ops : List Op) : Prop where
  ascending : (b.issued ops).Pairwise fun a b => (a.1 = b.1 → a.2 < b.2) ∧ a.2 ≠ b.2
  fenced : ∀ before op after x t u, ops = before ++ op :: after →
    (b.run before).coordinator.describe x = some t →
    ((b.run before).act op).coordinator.describe x = some u →
    u.identity ≠ t.identity → (b.run ops).Fences x t.identity

theorem sound_run {b : Broker} (h : b.coordinator.Sound) (ops : List Op) :
    (b.run ops).coordinator.Sound := by
  rw [run_coordinator]
  exact Coordinator.sound_run h _

theorem keepsFences (hs : b.coordinator.Sound) (ops : List Op) : b.KeepsFences ops where
  ascending := by
    rw [issued_eq]
    exact Coordinator.ascending_issued _ hs
  fenced := fun before op after x t u he hd hu hne => by
    subst he
    have hb := sound_run hs before
    have ha := sound_act hb op
    have hp : ((b.run before).act op).coordinator.Passed x t.identity := by
      rw [act_coordinator] at hu ⊢
      cases ho : (b.run before).order? op with
      | none =>
        rw [ho] at hu
        exact absurd (congrArg _ (Option.some.inj (hu.symm.trans hd))) hne
      | some o =>
        rw [ho] at hu
        exact Coordinator.passed_of_ne hb hd hu hne
    rw [run_append]
    apply fences_of_passed (sound_run hb (op :: after))
    rw [run, run_coordinator]
    exact Coordinator.passed_run _ ha hp

/-- **Fencing over whole runs**, of the coordinator alone and of the broker. -/
theorem fencing : (∀ maxTimeout ops, (Coordinator.start maxTimeout).KeepsFences ops) ∧
    ∀ config ops, (start config).KeepsFences ops :=
  ⟨fun maxTimeout ops => Coordinator.keepsFences (Coordinator.sound_start maxTimeout) ops,
    fun config ops => keepsFences (Coordinator.sound_start config.maxTransactionTimeout) ops⟩

end Broker
end FencedLog
