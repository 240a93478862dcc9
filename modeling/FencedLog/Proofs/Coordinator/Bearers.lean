/-
# Under which identities the coordinator acts

A transactional id is acted upon under its current identity and under no other
(`Acts`). An identity becomes current in two ways: a request for an identity is
answered with it, or a transaction is overdue and the entry goes on under the
next one (`Lapses`). The second kind is not answered to anybody, and never will
be: before somebody learns it, another request for an identity supersedes it.
Still it is accepted as long as it is current (`Bearers`), so the one whose
transaction was overdue can go on by counting its epoch up (`acts_unissued`).

Key definitions: `Coordinator.Acts`, `Coordinator.Lapses`, `Coordinator.Bearers`.
Key theorems: `Coordinator.acts_iff`, `Coordinator.identity_act`,
`Coordinator.had_of_issued`, `Coordinator.bearers_run`.
-/
import FencedLog.Proofs.Coordinator.Expiry
import FencedLog.Proofs.Coordinator.Fencing
import FencedLog.Proofs.Coordinator.Independent

namespace FencedLog

theorem Transaction.TimedOut.identity_ne {t u : Transaction} (h : t.TimedOut u) :
    u.identity ≠ t.identity := by
  intro he
  by_cases hl : t.identity.epoch = lastEpoch
  · have hzero := (h.last hl).1
    rw [he, hl] at hzero
    exact absurd hzero (by decide)
  · have hnext : t.identity.epoch = t.identity.epoch + 1 :=
      congrArg Identity.epoch (he.symm.trans (h.next hl).1)
    omega

namespace Coordinator

variable {c : Coordinator} {x y : String} {id : Identity} {op : Op}

/-! ### Who may act -/

/-- A request under the identity is granted: to enroll partitions, to write to
one, or to end a transaction. -/
inductive Acts (c : Coordinator) (x : String) (id : Identity) : Prop
  | enrolls (now : Span) (ps : List TopicPartition) (h : (c.enroll now x id ps).2 = .ok ())
  | writes (p : TopicPartition) (h : (c.permit x id p).2 = .ok ())
  | ends (o : Outcome) (closing : Closing) (h : (c.finish x id o).2 = .ok (some closing))

theorem enroll_current {t : Transaction} (hd : c.describe x = some t) (now : Span)
    (ps : List TopicPartition) : (c.enroll now x t.identity ps).2 = .ok () := by
  rw [Coordinator.enroll, authorize_eq_ok_iff.mpr ⟨hd, rfl⟩]

/-- Only the current identity may act, and it may at any time. -/
theorem acts_iff : c.Acts x id ↔ ∃ t, c.describe x = some t ∧ t.identity = id := by
  constructor
  · intro h
    cases h with
    | enrolls now ps h =>
      rcases enroll_spec c now x id ps with ⟨t, hd, hid, -⟩ | ⟨e, -, he, -⟩
      · exact ⟨t, hd, hid.symm⟩
      · rw [he] at h
        cases h
    | writes p h =>
      obtain ⟨t, hd, hid, -⟩ := (permit_spec c x id p).2.1.mp h
      exact ⟨t, hd, hid.symm⟩
    | ends o closing h =>
      rcases finish_spec c x id o with ⟨t, hd, hid, -⟩ | ⟨-, hno⟩
      · exact ⟨t, hd, hid.symm⟩
      · exact absurd h (hno closing)
  · rintro ⟨t, hd, rfl⟩
    exact .enrolls .zero [] (enroll_current hd _ _)

/-! ### Where a current identity comes from -/

/-- Only a request for an identity makes an entry. -/
theorem describe_act_none (hs : c.Sound) (hd : c.describe x = none)
    (hop : ∀ timeout, op ≠ .init x timeout) : (c.act op).describe x = none := by
  cases hy : op.txid? with
  | none =>
    cases op with
    | expire now => exact describe_expire_none c now hd
    | _ => cases hy
  | some y =>
    by_cases hyx : y = x
    · subst hyx
      rw [(act_ruling hy).1]
      show (Change.write _ c.transactions).get? y = none
      unfold Change.write
      cases hu : (ruling (c.describe y) c.next c.maxTimeout op).1.entry with
      | none => exact hd
      | some u =>
        obtain ⟨timeout, he⟩ := ((rules_ruling _ _ _ _).entry hy (hs.named y) hu).2 hd
        exact absurd he (hop timeout)
    · rw [describe_act_of_ne hs hy hyx, hd]

/-- The identity of an entry is the one that it had, or it is answered, or it
follows on an overdue transaction. -/
theorem identity_act (hs : c.Sound) {u : Transaction} (hu : (c.act op).describe x = some u) :
    (∃ t, c.describe x = some t ∧ t.identity = u.identity) ∨
    c.issue? op = some (x, u.identity) ∨
    ∃ now t, op = .expire now ∧ c.describe x = some t ∧ t.Overdue now ∧ t.TimedOut u := by
  have answered : ∀ timeout, op = .init x timeout → c.issue? op = some (x, u.identity) := by
    rintro timeout rfl
    have hi : c.issue? (.init x timeout) = some (x, (c.init x timeout).2.1) := rfl
    obtain ⟨⟨t, ht, hid⟩, -⟩ := issue?_spec hs hi
    rw [Option.some.inj (hu.symm.trans ht), hid]
    exact hi
  cases hd : c.describe x with
  | none =>
    by_cases hop : ∃ timeout, op = .init x timeout
    · obtain ⟨timeout, hop⟩ := hop
      exact Or.inr (Or.inl (answered timeout hop))
    · have hnone := describe_act_none hs hd fun timeout h => hop ⟨timeout, h⟩
      exact nomatch hnone.symm.trans hu
  | some t =>
    by_cases hop : ∃ now, op = .expire now
    · obtain ⟨now, rfl⟩ := hop
      by_cases ho : t.Overdue now
      · obtain ⟨n, -, hx⟩ := describe_expire_overdue hd ho
        obtain rfl := Option.some.inj (hu.symm.trans hx)
        exact Or.inr (Or.inr ⟨now, t, rfl, rfl, ho, Transaction.timedOut_succeed ho.1 n⟩)
      · rcases describe_expire c now hd with ⟨-, hx⟩ | ⟨he, -⟩
        · exact Or.inl ⟨t, rfl, congrArg _ (Option.some.inj (hx.symm.trans hu))⟩
        · exact absurd (Transaction.expired_iff.mp he) ho
    · have ht := turn hs.named op x
      rw [hd, hu] at ht
      cases ht with
      | same => exact Or.inl ⟨u, rfl, rfl⟩
      | enroll _ now ps _ => exact Or.inl ⟨t, rfl, (t.enroll_identity now ps).symm⟩
      | complete _ o _ _ => exact Or.inl ⟨t, rfl, (t.complete_identity o).symm⟩
      | supersede _ n timeout h _ _ =>
        rcases h with ⟨timeout', h⟩ | ⟨now, h, -⟩
        · exact Or.inr (Or.inl (answered timeout' h))
        · exact absurd ⟨now, h⟩ hop

/-! ### Over a run -/

/-- On the way through the operations a transaction of `x` was overdue, and the
entry has gone on under the identity. -/
def Lapses (c : Coordinator) (x : String) (id : Identity) (ops : List Op) : Prop :=
  ∃ before now after t u, ops = before ++ .expire now :: after ∧
    (c.run before).describe x = some t ∧ t.Overdue now ∧
    ((c.run before).act (.expire now)).describe x = some u ∧ t.TimedOut u ∧ u.identity = id

theorem issued_append (ops more : List Op) (c : Coordinator) :
    c.issued (ops ++ more) = c.issued ops ++ (c.run ops).issued more := by
  induction ops generalizing c with
  | nil => rfl
  | cons op ops ih => rw [List.cons_append, issued, issued, ih, List.append_assoc, run]

theorem had_run (ops : List Op) {c : Coordinator} (hs : c.Sound) (h : c.Had x id) :
    (c.run ops).Had x id := by
  induction ops generalizing c with
  | nil => exact h
  | cons op ops ih => exact ih (sound_act hs op) (had_act hs h op)

/-- Who was answered with an identity has it or had it. -/
theorem had_of_issued : ∀ {ops : List Op} {c : Coordinator}, c.Sound →
    (x, id) ∈ c.issued ops → (c.run ops).Had x id
  | op :: ops, c, hs, hm => by
    have hs' := sound_act hs op
    rcases List.mem_append.mp hm with hm | hm
    · obtain ⟨⟨t, hd, rfl⟩, -⟩ := issue?_spec hs (Option.mem_toList.mp hm)
      exact had_run ops hs' (hs'.had hd)
    · exact had_of_issued (c := c.act op) hs' hm

/-- A current identity was answered, or it follows on an overdue transaction. -/
theorem current_run (hs : c.Sound) (hnew : ∀ x, c.describe x = none) (ops : List Op) :
    ∀ x t, (c.run ops).describe x = some t →
      (x, t.identity) ∈ c.issued ops ∨ c.Lapses x t.identity ops := by
  induction ops using List.reverseRecOn with
  | nil =>
    intro x t hd
    exact nomatch (hnew x).symm.trans hd
  | append_singleton ops op ih =>
    intro x u hu
    have hu' : ((c.run ops).act op).describe x = some u := by
      rw [run_append] at hu
      exact hu
    rw [issued_append, List.mem_append]
    rcases identity_act (sound_run hs ops) hu' with ⟨t, hd, he⟩ | hi | ⟨now, t, rfl, hd, ho, hout⟩
    · rcases ih x t hd with hm | ⟨before, now, after, v, w, rfl, h⟩
      · exact Or.inl (Or.inl (he ▸ hm))
      · refine Or.inr ⟨before, now, after ++ [op], v, w, by simp, ?_⟩
        rwa [← he]
    · refine Or.inl (Or.inr ?_)
      simp [issued, hi]
    · exact Or.inr ⟨ops, now, [], t, u, rfl, hd, ho, hu', hout, rfl⟩

/-- The identity after an overdue transaction is answered to nobody, neither
before nor after. -/
theorem not_issued_of_lapses (hs : c.Sound) {ops : List Op} (h : c.Lapses x id ops) (y : String)
    (more : List Op) : (y, id) ∉ c.issued (ops ++ more) := by
  obtain ⟨before, now, after, t, u, rfl, hd, -, hu, hout, rfl⟩ := h
  have hb := sound_run hs before
  have ha := sound_act hb (.expire now)
  rw [List.append_assoc, issued_append, List.mem_append, not_or]
  constructor
  · intro hm
    have hhad := had_of_issued hs hm
    obtain rfl : x = y := (had_act hb hhad (.expire now)).alone x u hu rfl
    -- but the entry was before this identity until it was overdue
    obtain ⟨w, hw, hle⟩ := hhad.reached
    obtain rfl := Option.some.inj (hd.symm.trans hw)
    obtain ⟨v, hv, hge⟩ := Turn.identity hb hd (hd ▸ turn hb.named (.expire now) x)
    obtain rfl := Option.some.inj (hu.symm.trans hv)
    have hlt := hge.resolve_left hout.identity_ne
    rcases hle with he | hgt
    · exact hout.identity_ne he
    · exact Identity.ne_of_lt (Identity.lt_trans hlt hgt) rfl
  · intro hm
    exact (issued_of_had (after ++ more) ha (ha.had hu) hm).2 rfl

/-- Under which identities a coordinator acts after the operations. -/
structure Bearers (c : Coordinator) (ops : List Op) : Prop where
  /-- Only the current identity may act, and it may. -/
  current : ∀ x id, (c.run ops).Acts x id ↔ ∃ t, (c.run ops).describe x = some t ∧ t.identity = id
  /-- It was answered to a request for an identity of `x`, unless an overdue
  transaction has made it. -/
  issued_iff : ∀ x id, (c.run ops).Acts x id → ((x, id) ∈ c.issued ops ↔ ¬ c.Lapses x id ops)
  /-- What an overdue transaction has made is answered to nobody, then or later. -/
  unissued : ∀ x id, c.Lapses x id ops → ∀ y more, (y, id) ∉ c.issued (ops ++ more)

theorem bearers (hs : c.Sound) (hnew : ∀ x, c.describe x = none) (ops : List Op) :
    c.Bearers ops where
  current := fun _ _ => acts_iff
  issued_iff := fun x id h => by
    obtain ⟨t, hd, rfl⟩ := acts_iff.mp h
    constructor
    · intro hm hl
      have hno := not_issued_of_lapses hs hl x []
      rw [List.append_nil] at hno
      exact hno hm
    · exact (current_run hs hnew ops x t hd).resolve_right
  unissued := fun _ _ => not_issued_of_lapses hs

/-- **The coordinator acts under identities that it has answered, and under
those that it gave to an overdue transaction's successor**, after every run. -/
theorem bearers_run (maxTimeout : Span) (ops : List Op) : (start maxTimeout).Bearers ops :=
  bearers (sound_start maxTimeout) (fun _ => rfl) ops

/-- A transaction is enrolled, and is overdue. -/
def overdueOnce : List Op :=
  [.init "tx" (.ofSecs 1), .enroll .zero "tx" ⟨1000, 0⟩ [⟨"T", 0⟩], .expire (.ofSecs 2)]

/-- The next epoch is accepted, though nobody was answered with it. -/
theorem acts_unissued :
    ((start (.ofSecs 60)).run overdueOnce).Acts "tx" ⟨1000, 1⟩ ∧
    ("tx", ⟨1000, 1⟩) ∉ (start (.ofSecs 60)).issued overdueOnce := by
  refine ⟨.enrolls (.ofSecs 2) [⟨"T", 0⟩] ?_, ?_⟩
  · decide
  · decide

end Coordinator
end FencedLog
