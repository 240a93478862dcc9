/-
# A transaction is handed back when it ends

A transaction is under way while its identity is current and its stage is
ongoing (`UnderWay`). Whenever an operation ends it, by request, by a newer
identity or by its timeout, the operation hands back one closing with the
transaction's producer, its outcome and all its partitions, and it hands back
nothing else (`mem_closings`).

Key definitions: `Coordinator.UnderWay`, `Coordinator.closings`,
`Coordinator.Op.outcome`.
Key theorems: `Coordinator.mem_closings`, `Coordinator.underWay_act`.
-/
import FencedLog.Proofs.Coordinator.Sound

namespace FencedLog
namespace Coordinator

/-- The transaction of identity `id` of `x` is ongoing. -/
def UnderWay (c : Coordinator) (x : String) (id : Identity) : Prop :=
  ∃ t, c.describe x = some t ∧ t.stage = .ongoing ∧ t.identity = id

/-- The outcome of the transactions that an operation ends. -/
def Op.outcome : Op → Outcome
  | .finish _ _ o => o
  | _ => .abort

/-- What an end request hands back. -/
def handedBack : Except BrokerError (Option Closing) → List Closing
  | .ok (some closing) => [closing]
  | .ok none => []
  | .error _ => []

/-- The transactions that an operation ends, as it hands them back. -/
def closings (c : Coordinator) : Op → List Closing
  | .init x timeout => (c.init x timeout).2.2.toList
  | .finish x id o => handedBack (c.finish x id o).2
  | .expire now => (c.expire now).2
  | .enroll .. | .permit .. => []

theorem underWay_iff {c : Coordinator} {x : String} {t : Transaction} (h : c.describe x = some t)
    (id : Identity) : c.UnderWay x id ↔ t.stage = .ongoing ∧ t.identity = id := by
  constructor
  · rintro ⟨u, hu, hs, hid⟩
    rw [h] at hu
    rw [Option.some.inj hu]
    exact ⟨hs, hid⟩
  · exact fun ⟨hs, hid⟩ => ⟨t, h, hs, hid⟩

theorem closings_finish_of_ok {c : Coordinator} {x : String} {id : Identity} {o : Outcome}
    {closing : Closing} (h : (c.finish x id o).2 = .ok (some closing)) :
    c.closings (.finish x id o) = [closing] := by
  rw [closings, h, handedBack]

theorem closings_finish_of_ne {c : Coordinator} {x : String} {id : Identity} {o : Outcome}
    (h : ∀ closing, (c.finish x id o).2 ≠ .ok (some closing)) :
    c.closings (.finish x id o) = [] := by
  rw [closings]
  cases hr : (c.finish x id o).2 with
  | error e => rfl
  | ok r =>
    cases r with
    | none => rfl
    | some closing => exact absurd hr (h closing)

variable {c : Coordinator}

/-- A closing is that of a transaction that the operation ended. -/
theorem of_mem_closings (h : c.Sound) {op : Op} {closing : Closing}
    (hc : closing ∈ c.closings op) : ∃ t, c.describe closing.txid = some t ∧ t.stage = .ongoing ∧
      closing = (t.complete op.outcome).2 ∧ ¬ (c.act op).UnderWay closing.txid t.identity := by
  -- an entry that has left the ongoing stage is not under way
  have ended : ∀ {x : String} {t u : Transaction}, c.describe x = some t → t.stage = .ongoing →
      closing = (t.complete op.outcome).2 → (c.act op).describe x = some u → u.stage ≠ .ongoing →
      ∃ t, c.describe closing.txid = some t ∧ t.stage = .ongoing ∧
        closing = (t.complete op.outcome).2 ∧ ¬ (c.act op).UnderWay closing.txid t.identity := by
    intro x t u hd hs heq hd' hs'
    have hx : closing.txid = x := by
      rw [heq]
      exact h.named x t hd
    rw [hx]
    exact ⟨t, hd, hs, heq, fun hw => hs' ((underWay_iff hd' _).mp hw).1⟩
  cases op with
  | init x timeout =>
    rcases init_spec c x timeout with ⟨-, -, -, ha⟩ | ⟨t, hd, hput, -, ha⟩
    · rw [closings, ha] at hc
      simp at hc
    · rw [closings, ha] at hc
      by_cases hs : t.stage = .ongoing
      · simp only [if_pos hs, Option.toList_some, List.mem_singleton] at hc
        apply ended hd hs hc ((describe_put hput x).trans (if_pos (h.named x t hd)))
        show (t.succeed c.next).stage ≠ .ongoing
        simp
      · simp [if_neg hs] at hc
  | enroll now x id ps => simp [closings] at hc
  | permit x id p => simp [closings] at hc
  | finish x id o =>
    rcases finish_spec c x id o with ⟨t, hd, rfl, hs, ha, hput, -⟩ | ⟨-, ha⟩
    · rw [closings_finish_of_ok ha, List.mem_singleton] at hc
      exact ended hd hs hc ((describe_put hput x).trans (if_pos (h.named x t hd))) (by simp)
    · rw [closings_finish_of_ne ha] at hc
      simp at hc
  | expire now =>
    have hc' : closing ∈ (expireRows now c.transactions.rows c.next).2.2 := hc
    rw [expireRows_closings] at hc'
    obtain ⟨⟨x, t⟩, hr, rfl⟩ := List.mem_map.mp hc'
    obtain ⟨hmem, he⟩ := List.mem_filter.mp hr
    have hd := h.mem.mpr hmem
    rcases describe_expire c now hd with ⟨hf, -⟩ | ⟨-, n, -, -, hx⟩
    · simp [he] at hf
    · exact ended hd (t.stage_of_expired he) rfl hx (by simp)

/-- A transaction that an operation ends is handed back. -/
theorem mem_closings_of_ended (h : c.Sound) {op : Op} {x : String} {t : Transaction}
    (hd : c.describe x = some t) (hs : t.stage = .ongoing)
    (hw : ¬ (c.act op).UnderWay x t.identity) : (t.complete op.outcome).2 ∈ c.closings op := by
  have hx := h.named x t hd
  -- the entry of `x` is not as it was
  have hne : (c.act op).describe x ≠ some t := fun heq => hw ⟨t, heq, hs, rfl⟩
  cases op with
  | init y timeout =>
    rcases init_spec c y timeout with ⟨hn, hput, -, -⟩ | ⟨u, hu, hput, -, ha⟩
    · have hyx : y ≠ x := fun he => by
        rw [he, hd] at hn
        cases hn
      exact absurd ((describe_put hput x).trans ((if_neg hyx).trans hd)) hne
    · by_cases hyx : y = x
      · subst hyx
        rw [hd] at hu
        obtain rfl := Option.some.inj hu
        rw [closings, ha]
        simp [hs, Op.outcome]
      · have hux : u.txid ≠ x := h.named y u hu ▸ hyx
        exact absurd ((describe_put hput x).trans ((if_neg hux).trans hd)) hne
  | enroll now y id ps =>
    rcases enroll_spec c now y id ps with ⟨u, hu, -, -, hput, -⟩ | ⟨e, -, -, hf⟩
    · by_cases hyx : u.txid = x
      · have hyx' : y = x := (h.named y u hu).symm.trans hyx
        subst hyx'
        rw [hd] at hu
        obtain rfl := Option.some.inj hu
        refine absurd ⟨_, (describe_put hput y).trans (if_pos hx), ?_, ?_⟩ hw
        · simp
        · simp
      · exact absurd ((describe_put hput x).trans ((if_neg hyx).trans hd)) hne
    · exact absurd ((hf.describe x).trans hd) hne
  | permit y id p => exact absurd (((permit_spec c y id p).1.describe x).trans hd) hne
  | finish y id o =>
    rcases finish_spec c y id o with ⟨u, hu, -, -, ha, hput, -⟩ | ⟨hf, -⟩
    · by_cases hyx : u.txid = x
      · have hyx' : y = x := (h.named y u hu).symm.trans hyx
        subst hyx'
        rw [hd] at hu
        obtain rfl := Option.some.inj hu
        rw [closings_finish_of_ok ha]
        exact List.mem_singleton.mpr rfl
      · exact absurd ((describe_put hput x).trans ((if_neg hyx).trans hd)) hne
    · exact absurd ((hf.describe x).trans hd) hne
  | expire now =>
    rcases describe_expire c now hd with ⟨-, hx'⟩ | ⟨he, -⟩
    · exact absurd hx' hne
    · show _ ∈ (expireRows now c.transactions.rows c.next).2.2
      rw [expireRows_closings]
      exact List.mem_map.mpr ⟨(x, t), List.mem_filter.mpr ⟨h.mem.mp hd, he⟩, rfl⟩

/-- **The closings of an operation are the transactions it ends.** -/
theorem mem_closings (h : c.Sound) {op : Op} {closing : Closing} :
    closing ∈ c.closings op ↔ ∃ t, c.describe closing.txid = some t ∧ t.stage = .ongoing ∧
      closing = (t.complete op.outcome).2 ∧ ¬ (c.act op).UnderWay closing.txid t.identity :=
  ⟨of_mem_closings h, fun ⟨_, hd, hs, heq, hw⟩ => heq ▸ mem_closings_of_ended h hd hs hw⟩

/-- A transaction that is under way afterwards was so before, or was started by
enrolling under its identity. -/
theorem underWay_act (h : c.Sound) {op : Op} {x : String} {id : Identity}
    (hw : (c.act op).UnderWay x id) :
    c.UnderWay x id ∨ ∃ now ps, op = .enroll now x id ps := by
  obtain ⟨u, hu, hs, rfl⟩ := hw
  have ht := turn h.named op x
  rw [hu] at ht
  generalize hd : c.describe x = t? at ht
  cases ht with
  | same => exact Or.inl ⟨u, hd, hs, rfl⟩
  | fresh n timeout _ _ => simp [Transaction.fresh] at hs
  | enroll t now ps hop =>
    rw [Transaction.enroll_identity]
    exact Or.inr ⟨now, ps, hop⟩
  | complete t o _ _ => simp at hs
  | supersede t n timeout _ _ _ =>
    replace hs : (t.succeed n).stage = .ongoing := hs
    simp at hs

/-- A transaction that stays under way keeps its partitions. -/
theorem partitions_act (h : c.Sound) {op : Op} {x : String} {t : Transaction}
    (hd : c.describe x = some t) (hs : t.stage = .ongoing)
    (hw : (c.act op).UnderWay x t.identity) : ∃ t', (c.act op).describe x = some t' ∧
      t'.stage = .ongoing ∧ t'.identity = t.identity ∧ ∀ p ∈ t.partitions, p ∈ t'.partitions := by
  obtain ⟨u, hu, hsu, hid⟩ := hw
  refine ⟨u, hu, hsu, hid, ?_⟩
  have ht := turn h.named op x
  rw [hd, hu] at ht
  cases ht with
  | same => exact fun _ hp => hp
  | enroll _ now ps _ => exact fun p hp => t.mem_enroll_partitions.mpr (Or.inr ⟨hs, hp⟩)
  | complete _ o _ _ => simp at hsu
  | supersede _ n timeout _ _ _ =>
    replace hsu : (t.succeed n).stage = .ongoing := hsu
    simp at hsu

/-- No operation ends one transaction of a transactional id and starts another. -/
theorem underWay_identity (h : c.Sound) {op : Op} {x : String} {id id' : Identity}
    (hw : c.UnderWay x id) (hw' : (c.act op).UnderWay x id') : id' = id := by
  obtain ⟨t, hd, hs, rfl⟩ := hw
  obtain ⟨u, hu, hsu, rfl⟩ := hw'
  have ht := turn h.named op x
  rw [hd, hu] at ht
  cases ht with
  | same => rfl
  | enroll _ now ps _ => exact t.enroll_identity now ps
  | complete _ o _ _ => rfl
  | supersede _ n timeout _ _ _ =>
    replace hsu : (t.succeed n).stage = .ongoing := hsu
    simp at hsu

end Coordinator
end FencedLog
