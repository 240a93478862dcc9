/-
# Following a transaction of an identity

While nobody else enrolls under an identity, its last transaction can be
followed: it is open, or it has ended and the coordinator remembers how
(`Tracked`). A positive answer to an end request then says how it ended
(`Tracked.ended`), and a positive answer to an append says that it is the one
in which the partition is enrolled.

Key definition: `Chronicle.Tracked`.
Key theorems: `Chronicle.tracked_act`, `Chronicle.Tracked.ended`,
`Chronicle.enrolled_act`, `Chronicle.enroll_ok`, `Chronicle.append_ok`.
-/
import FencedLog.Proofs.Broker.Attribution
import FencedLog.Proofs.Broker.Fencing
import FencedLog.Proofs.Coordinator.Last

namespace FencedLog

/-! ### Positive answers -/

namespace Broker

variable {b : Broker} {now : Span} {x : String} {id : Identity} {r : Reply}

theorem available_of_ok {q : Request} (h : (b.handle now q).2 = .ok r) : b.available = true := by
  cases ha : b.available with
  | true => rfl
  | false => simp [handle, ha] at h

/-- Partitions are enrolled in the transaction of the current identity. -/
theorem enroll_ok (hs : b.coordinator.Sound) {ps : List TopicPartition}
    (h : (b.handle now (.enroll x id ps)).2 = .ok r) : ∃ t, b.coordinator.describe x = some t ∧
      t.identity = id ∧ (b.act (.request now (.enroll x id ps))).coordinator.describe x =
        some (t.enroll now ps) := by
  have ha := available_of_ok h
  rw [act_coordinator]
  simp only [order?, ha, orderOf, ↓reduceIte]
  simp only [handle, ha, ↓reduceIte] at h
  rcases enroll_spec b now x id ps with ⟨e, -, henroll⟩ | ⟨hb, henroll⟩ <;> rw [henroll] at h
  · cases h
  · simp only [hb, Option.elim, Coordinator.act]
    rcases Coordinator.enroll_spec b.coordinator now x id ps with
      ⟨t, hd, hid, -, hput, -⟩ | ⟨e, -, he, -⟩
    · refine ⟨t, hd, hid.symm, ?_⟩
      rw [Coordinator.describe_put hput, if_pos (hs.named x t hd)]
    · rw [he] at h
      cases h

/-- A refused enrollment moves no entry. -/
theorem describe_of_refused {ps : List TopicPartition} {e : BrokerError}
    (h : (b.handle now (.enroll x id ps)).2 = .error e) (y : String) :
    (b.act (.request now (.enroll x id ps))).coordinator.describe y = b.coordinator.describe y := by
  rw [act_coordinator]
  cases ha : b.available with
  | false => simp [order?, ha]
  | true =>
    simp only [order?, ha, ↓reduceIte, orderOf]
    simp only [handle, ha, ↓reduceIte] at h
    rcases enroll_spec b now x id ps with ⟨e', hb, henroll⟩ | ⟨hb, henroll⟩
    · rw [hb]
      rfl
    · rw [henroll] at h
      rw [hb]
      rcases Coordinator.enroll_spec b.coordinator now x id ps with
        ⟨t, -, -, hok, -⟩ | ⟨e', -, -, hf⟩
      · rw [hok] at h
        cases h
      · exact hf.describe y

/-- Records are appended in the ongoing transaction of the current identity. -/
theorem append_ok {p : TopicPartition} {records : List Record}
    (h : (b.handle now (.append x id p records)).2 = .ok r) :
    ∃ t log, b.coordinator.describe x = some t ∧ id = t.identity ∧ t.stage = .ongoing ∧
      p ∈ t.partitions ∧ b.log? p = some log ∧ r = .appended log.next ∧
      (b.act (.request now (.append x id p records))).log? p =
        some (log.extend (records.map (.record (some id.producer)))) := by
  have ha := available_of_ok h
  simp only [act, handle, ha, ↓reduceIte] at h ⊢
  rcases append_spec b x id p records with ⟨t, log, hd, hid, ho, hp, hl, hok, hq⟩ | ⟨e, he, -⟩
  · rw [hok] at h
    exact ⟨t, log, hd, hid, ho, hp, hl, (Except.ok.inj h).symm, by rw [hq, if_pos rfl]⟩
  · rw [he] at h
    cases h

/-- The coordinator has agreed to an end that the broker agrees to. -/
theorem finish_ok {o : Outcome} (h : (b.handle now (.finish x id o)).2 = .ok r) :
    (b.act (.request now (.finish x id o))).coordinator = b.coordinator.act (.finish x id o) ∧
      ∃ closing, (b.coordinator.finish x id o).2 = .ok closing := by
  have ha := available_of_ok h
  refine ⟨by rw [act_coordinator]; simp [order?, ha, orderOf], ?_⟩
  simp only [handle, ha, ↓reduceIte, finish] at h
  split at h
  · cases h
  · rename_i c hf
    exact ⟨none, by rw [hf]⟩
  · rename_i c closing hf
    exact ⟨some closing, by rw [hf]⟩

end Broker

namespace Chronicle

variable {c : Chronicle} {op : Broker.Op} {T : Txn} {p : TopicPartition}

/-! ### The last transaction -/

/-- The transaction is open, or has ended and is remembered. -/
def Tracked (c : Chronicle) (T : Txn) : Prop :=
  c.Open T ∨ ∃ o, c.ledger.ended T = some o ∧
    c.broker.coordinator.Remembers T.txid T.identity o

/-- The transaction is not open any more: the operation has ended it. -/
theorem not_underWay (ho : c.Open T) (hno : ¬ (c.act op).Open T) :
    ¬ (c.act op).broker.coordinator.UnderWay T.txid T.identity :=
  fun hw => hno (open_act_of_open ho hw)

/-- A transaction that ends is remembered. -/
theorem remembers_ended (hs : c.broker.coordinator.Sound) (ho : c.Open T)
    (hno : ¬ (c.act op).Open T) : (c.act op).ledger.ended T = some op.outcome ∧
      (c.act op).broker.coordinator.Remembers T.txid T.identity op.outcome := by
  refine ⟨by rw [ended_act, if_pos ⟨ho, hno⟩], ?_⟩
  have hw := (open_iff.mp ho).1
  have hno' := not_underWay ho hno
  rw [show (c.act op).broker = c.broker.act op from rfl, Broker.act_coordinator] at hno' ⊢
  cases hop : c.broker.order? op with
  | none =>
    rw [hop] at hno'
    exact absurd hw hno'
  | some cop =>
    rw [hop] at hno'
    rw [← Broker.outcome_of_order hop]
    exact Coordinator.remembers_ended hs hw hno'

theorem tracked_act (hs : c.broker.coordinator.Sound) (hk : c.Kept) (h : c.Tracked T)
    (hop : ∀ now ps, op ≠ .request now (.enroll T.txid T.identity ps)) :
    (c.act op).Tracked T := by
  rcases h with ho | ⟨o, he, hr⟩
  · by_cases ho' : (c.act op).Open T
    · exact Or.inl ho'
    · exact Or.inr ⟨_, remembers_ended hs ho ho'⟩
  · refine Or.inr ⟨o, ended_stable hk he op, ?_⟩
    rw [show (c.act op).broker = c.broker.act op from rfl, Broker.act_coordinator]
    cases hc : c.broker.order? op with
    | none => exact hr
    | some cop =>
      refine Coordinator.remembers_act hs hr fun now ps he => ?_
      exact hop now ps (Broker.order?_eq_enroll (he ▸ hc))

/-- What moves no entry leaves the last transaction as it is. -/
theorem tracked_of_describe (hk : c.Kept) (h : c.Tracked T) (hd : ∀ y,
    (c.act op).broker.coordinator.describe y = c.broker.coordinator.describe y) :
    (c.act op).Tracked T := by
  rcases h with ho | ⟨o, he, t, ht, hr⟩
  · obtain ⟨⟨t, ht, hst⟩, -⟩ := open_iff.mp ho
    exact Or.inl (open_act_of_open ho ⟨t, (hd _).trans ht, hst⟩)
  · exact Or.inr ⟨o, ended_stable hk he op, t, (hd _).trans ht, hr⟩

/-- A positive answer to an end request says how the last transaction of the
identity ended. -/
theorem Tracked.ended (h : c.Tracked T) (hs : c.broker.coordinator.Sound) (hk : c.Kept)
    {now : Span} {o : Outcome} {r : Reply}
    (ha : (c.broker.handle now (.finish T.txid T.identity o)).2 = .ok r) :
    (c.act (.request now (.finish T.txid T.identity o))).ledger.ended T = some o := by
  obtain ⟨hc, closing, hok⟩ := Broker.finish_ok ha
  rcases h with ho | ⟨o', he, hr⟩
  · have hno : ¬ (c.act (.request now (.finish T.txid T.identity o))).Open T := by
      intro ho'
      have hw := (open_iff.mp ho').1
      rw [show (c.act _).broker = c.broker.act _ from rfl, hc] at hw
      exact Coordinator.finish_of_underWay hs (open_iff.mp ho).1 o hw
    exact (remembers_ended hs ho hno).1
  · obtain rfl := hr.agrees hok
    exact ended_stable hk he _

/-- A transaction ends by its own end request, or is aborted when its identity
is superseded. -/
theorem passed_of_ended (hs : c.broker.coordinator.Sound) (ho : c.Open T)
    (hno : ¬ (c.act op).Open T) : (∃ now o, op = .request now (.finish T.txid T.identity o)) ∨
      (op.outcome = .abort ∧ (c.act op).broker.coordinator.Passed T.txid T.identity) := by
  have hw := (open_iff.mp ho).1
  have hno' := not_underWay ho hno
  rw [show (c.act op).broker = c.broker.act op from rfl, Broker.act_coordinator] at hno' ⊢
  cases hop : c.broker.order? op with
  | none =>
    rw [hop] at hno'
    exact absurd hw hno'
  | some cop =>
    rw [hop] at hno'
    rcases Coordinator.passed_of_ended hs hw hno' with ⟨o, rfl⟩ | ⟨hout, hp⟩
    · obtain ⟨now, rfl⟩ := Broker.order?_eq_finish hop
      exact Or.inl ⟨now, o, rfl⟩
    · exact Or.inr ⟨(Broker.outcome_of_order hop) ▸ hout, hp⟩

/-! ### Enrolling -/

/-- An open transaction has a partition that it had before, or that has just
been enrolled under its identity. -/
theorem enrolled_act (hs : c.broker.coordinator.Sound) (ho : (c.act op).Open T)
    (he : (c.act op).Enrolled T p) : (c.Open T ∧ c.Enrolled T p) ∨
      ∃ now ps, op = .request now (.enroll T.txid T.identity ps) ∧ p ∈ ps := by
  obtain ⟨t, hd, hp⟩ := he
  obtain ⟨hongoing, hid⟩ := (Coordinator.underWay_iff hd _).mp (open_iff.mp ho).1
  -- what was under way under the identity before is the same transaction
  have before : ∀ t', c.broker.coordinator.describe T.txid = some t' → t'.stage = .ongoing →
      t'.identity = t.identity → p ∈ t'.partitions → c.Open T ∧ c.Enrolled T p := by
    intro t' hd' ho' hid' hp'
    have hw : c.broker.coordinator.UnderWay T.txid T.identity :=
      ⟨t', hd', ho', hid'.trans hid⟩
    exact ⟨open_iff.mpr ⟨hw, (open_iff.mp ho).2.trans (starts_of_underWay hw)⟩, t', hd', hp'⟩
  rw [show (c.act op).broker = c.broker.act op from rfl, Broker.act_coordinator] at hd
  cases hop : c.broker.order? op with
  | none =>
    rw [hop] at hd
    exact Or.inl (before t hd hongoing rfl hp)
  | some cop =>
    rw [hop] at hd
    rcases Coordinator.enrolled_act hs hd hongoing hp with ⟨t', hd', ho', hid', hp'⟩ |
      ⟨now, ps, rfl, hps⟩
    · exact Or.inl (before t' hd' ho' hid' hp')
    · rw [hid] at hop
      exact Or.inr ⟨now, ps, Broker.order?_eq_enroll hop, hps⟩

/-- Partitions are enrolled in a transaction of the identity that asks. -/
theorem enroll_ok (hs : c.broker.coordinator.Sound) {now : Span} {x : String} {id : Identity}
    {ps : List TopicPartition} {r : Reply}
    (h : (c.broker.handle now (.enroll x id ps)).2 = .ok r) :
    ∃ T, (c.act (.request now (.enroll x id ps))).ledger.current
        (c.act (.request now (.enroll x id ps))).broker.coordinator x = some T ∧
      T.txid = x ∧ T.identity = id ∧ (c.act (.request now (.enroll x id ps))).Open T := by
  obtain ⟨t, hd, rfl, hd'⟩ := Broker.enroll_ok hs h
  obtain ⟨T, hT, hx, hid, ho⟩ := current_of_describe (c := c.act _) hd' (t.enroll_stage now ps)
  exact ⟨T, hT, hx, hid.trans (t.enroll_identity now ps), ho⟩

/-- Records are appended in a transaction of the identity that asks, in which
the partition is enrolled. -/
theorem append_ok {now : Span} {x : String} {id : Identity} {records : List Record} {r : Reply}
    (h : (c.broker.handle now (.append x id p records)).2 = .ok r) :
    ∃ T, c.Open T ∧ c.Enrolled T p ∧ T.txid = x ∧ T.identity = id ∧
      (c.act (.request now (.append x id p records))).ledger.current
        (c.act (.request now (.append x id p records))).broker.coordinator x = some T := by
  obtain ⟨t, log, hd, rfl, hongoing, hp, hl, rfl, -⟩ := Broker.append_ok h
  obtain ⟨T, -, rfl, hid, ho⟩ := current_of_describe hd hongoing
  have hw : (c.act (.request now (.append T.txid t.identity p records))).broker.coordinator.UnderWay
      T.txid T.identity := by
    have hc : (c.act (.request now (.append T.txid t.identity p records))).broker.coordinator = _ :=
      Broker.act_coordinator c.broker _
    rw [hc]
    simp only [Broker.order?, Broker.orderOf]
    have hw := (open_iff.mp ho).1
    split
    · split
      · exact hw
      · obtain ⟨u, hu, hs⟩ := hw
        exact ⟨u, ((Coordinator.permit_spec _ _ _ _).1.describe _).trans hu, hs⟩
    · exact hw
  exact ⟨T, ho, ⟨t, hd, hp⟩, rfl, hid, open_act_of_open ho hw⟩

end Chronicle
end FencedLog
