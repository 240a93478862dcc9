/-
# An identity that one client uses

Of an identity that its transactional id has had, the broker's answers can be
relied on: a refusal that fences says that the identity has been superseded,
and then its transaction has been aborted. An identity that has just been
given out has no transaction.

Key theorems: `Broker.passed_of_fencing`, `Broker.init_ok`,
`Chronicle.ended_without`, `Chronicle.Open.eq_of_act`.
-/
import FencedLog.Proofs.Broker.Last

namespace FencedLog

namespace Broker

variable {b : Broker} {x : String} {id : Identity} {now : Span} {q : Request} {e : BrokerError}

theorem had_act (hs : b.coordinator.Sound) (h : b.coordinator.Had x id) (op : Op) :
    (b.act op).coordinator.Had x id := by
  rw [act_coordinator]
  cases b.order? op with
  | none => exact h
  | some o => exact Coordinator.had_act hs h o

theorem passed_act (hs : b.coordinator.Sound) (h : b.coordinator.Passed x id) (op : Op) :
    (b.act op).coordinator.Passed x id := by
  rw [act_coordinator]
  cases b.order? op with
  | none => exact h
  | some o => exact Coordinator.passed_act hs h o

/-! ### Refusals -/

/-- A topic that cannot be made is an unknown one. -/
theorem ensureAll_error : ∀ {ps : List TopicPartition} {b : Broker},
    (b.ensureAll ps).2 = .error e → e.isFencing = false
  | [], _, h => nomatch h
  | p :: ps, b, h => by
    simp only [ensureAll] at h
    split at h
    · exact ensureAll_error h
    · rw [← Except.error.inj h]
      rfl

/-- The current identity may be refused, but is never fenced. -/
theorem not_isFencing_of_current {t : Transaction} (hd : b.coordinator.describe x = some t)
    (hq : Under x t.identity q) (h : (b.handle now q).2 = .error e) : e.isFencing = false := by
  have hauth : b.coordinator.authorize x t.identity = .ok t :=
    Coordinator.authorize_eq_ok_iff.mpr ⟨hd, rfl⟩
  unfold handle at h
  split at h
  · cases q with
    | enroll y id ps =>
      obtain ⟨rfl, rfl⟩ := hq
      rcases enroll_spec b now y t.identity ps with ⟨e', hb, henroll⟩ | ⟨-, henroll⟩ <;>
        simp only [henroll] at h
      · rw [← Except.error.inj h]
        exact ensureAll_error hb
      · rcases Coordinator.enroll_spec b.coordinator now y t.identity ps with
          ⟨-, -, -, hok, -⟩ | ⟨e', he, -⟩
        · rw [hok] at h
          cases h
        · rw [hauth] at he
          cases he
    | append y id p rs =>
      obtain ⟨rfl, rfl⟩ := hq
      simp only [append] at h
      split at h
      · rw [← Except.error.inj h]
        rfl
      · split at h
        · rename_i c e' hp
          rw [← Except.error.inj h]
          exact Coordinator.permit_current hd (by rw [hp])
        · split at h
          · cases h
          · rw [← Except.error.inj h]
            rfl
    | finish y id o =>
      obtain ⟨rfl, rfl⟩ := hq
      simp only [finish] at h
      split at h
      · rename_i c e' hf
        rw [← Except.error.inj h]
        exact Coordinator.finish_current hd (by rw [hf])
      · cases h
      · cases h
    | init y timeout => exact hq.elim
    | listing topic => exact hq.elim
  · rw [← Except.error.inj h]
    rfl

/-- A refusal that fences an identity is right. -/
theorem passed_of_fencing (hs : b.coordinator.Sound) (hh : b.coordinator.Had x id)
    (hq : Under x id q) (h : (b.handle now q).2 = .error e) (he : e.isFencing = true) :
    (b.act (.request now q)).coordinator.Passed x id := by
  obtain ⟨t, hd, hid⟩ := hh.reached
  rcases hid with rfl | hlt
  · rw [not_isFencing_of_current hd hq h] at he
    cases he
  · exact passed_act hs ⟨t, hd, hlt⟩ _

/-- A refused end request ends nothing. -/
theorem describe_of_unfinished {o : Outcome} (h : (b.handle now (.finish x id o)).2 = .error e)
    (y : String) : (b.act (.request now (.finish x id o))).coordinator.describe y =
      b.coordinator.describe y := by
  rw [act_coordinator]
  cases ha : b.available with
  | false => simp [order?, ha]
  | true =>
    simp only [order?, ha, ↓reduceIte, orderOf, Option.elim, Coordinator.act]
    simp only [handle, ha, ↓reduceIte, finish] at h
    split at h
    · rename_i c e' hf
      exact Coordinator.describe_of_unfinished (e := e') (by rw [hf]) y
    · cases h
    · cases h

/-! ### Identities that are given out -/

/-- An identity that is given out is the transactional id's, and has no
transaction. -/
theorem init_ok (hs : b.coordinator.Sound) {timeout : Span}
    (h : (b.handle now (.init x timeout)).2 = .ok (.identity id)) :
    (b.act (.request now (.init x timeout))).coordinator.Had x id ∧
      ¬ (b.act (.request now (.init x timeout))).coordinator.UnderWay x id := by
  have hissue : b.issue? (.request now (.init x timeout)) = some (x, id) := by
    simp only [issue?, h]
  rw [issue?_eq] at hissue
  obtain ⟨cop, hop, hissue⟩ := Option.bind_eq_some_iff.mp hissue
  obtain ⟨⟨t, hd, rfl⟩, hlt⟩ := Coordinator.issue?_spec hs hissue
  have hsa := sound_act hs (.request now (.init x timeout))
  have hact : (b.act (.request now (.init x timeout))).coordinator = b.coordinator.act cop := by
    rw [act_coordinator, hop]
    rfl
  refine ⟨hsa.had (hact ▸ hd), fun hw => ?_⟩
  rcases underWay_act hs hw with ⟨t', hd', -, hid⟩ | ⟨now', ps, he⟩
  · exact Identity.ne_of_lt (hlt t' hd') hid
  · cases he

end Broker

namespace Chronicle

variable {c : Chronicle} {op : Broker.Op} {T : Txn}

/-- Of a superseded identity no transaction is open. -/
theorem not_open_of_passed (h : c.broker.coordinator.Passed T.txid T.identity) : ¬ c.Open T := by
  intro ho
  obtain ⟨⟨t, hd, -, hid⟩, -⟩ := open_iff.mp ho
  obtain ⟨w, hw, hlt⟩ := h
  obtain rfl := Option.some.inj (hd.symm.trans hw)
  exact Identity.ne_of_lt hlt hid.symm

/-- A transaction that is not ended under its own identity stays open, or is
aborted and its identity superseded. -/
theorem ended_without (hs : c.broker.coordinator.Sound) (ho : c.Open T)
    (hop : ∀ now o, op ≠ .request now (.finish T.txid T.identity o)) :
    (c.act op).Open T ∨ ((c.act op).ledger.ended T = some .abort ∧
      (c.act op).broker.coordinator.Passed T.txid T.identity) := by
  by_cases ho' : (c.act op).Open T
  · exact Or.inl ho'
  · rcases passed_of_ended hs ho ho' with ⟨now, o, he⟩ | ⟨hout, hp⟩
    · exact absurd he (hop now o)
    · exact Or.inr ⟨hout ▸ (remembers_ended hs ho ho').1, hp⟩

/-- A refused end request leaves the transaction open. -/
theorem open_of_unfinished (ho : c.Open T) {now : Span} {o : Outcome} {e : BrokerError}
    (h : (c.broker.handle now (.finish T.txid T.identity o)).2 = .error e) :
    (c.act (.request now (.finish T.txid T.identity o))).Open T := by
  obtain ⟨t, hd, hst⟩ := (open_iff.mp ho).1
  exact open_act_of_open ho ⟨t, (Broker.describe_of_unfinished h _).trans hd, hst⟩

/-- A transaction that is open was open before, unless it is enrolled in. -/
theorem open_of_open (hs : c.broker.coordinator.Sound) (ho : (c.act op).Open T)
    (hop : ∀ now ps, op ≠ .request now (.enroll T.txid T.identity ps)) : c.Open T := by
  rcases open_of_open_act hs ho with h | ⟨-, -, now, ps, he⟩
  · exact h
  · exact absurd he (hop now ps)

/-- A refused enrollment opens no transaction. -/
theorem open_of_unenrolled (hs : c.broker.coordinator.Sound) {now : Span} {x : String}
    {id : Identity} {ps : List TopicPartition} {e : BrokerError}
    (h : (c.broker.handle now (.enroll x id ps)).2 = .error e)
    (ho : (c.act (.request now (.enroll x id ps))).Open T) : c.Open T := by
  rcases open_of_open_act hs ho with h' | ⟨hno, -⟩
  · exact h'
  · obtain ⟨t, hd, hst⟩ := (open_iff.mp ho).1
    exact absurd ⟨t, (Broker.describe_of_refused h _).symm.trans hd, hst⟩ (hno T.identity)

/-- While a transaction is open its transactional id starts no other. -/
theorem Open.eq_of_act (hs : c.broker.coordinator.Sound) (hT : c.Open T) {U : Txn}
    (hU : (c.act op).Open U) (hx : U.txid = T.txid) : U = T := by
  rcases open_of_open_act hs hU with ho | ⟨hno, -⟩
  · exact ho.unique hT hx
  · exact absurd (hx ▸ (open_iff.mp hT).1) (hno T.identity)

end Chronicle
end FencedLog
