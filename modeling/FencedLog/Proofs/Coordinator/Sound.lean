/-
# What the coordinator keeps true

Whatever is asked of a coordinator, in any order: no producer belongs to two
transactional ids and every producer was given out before the next one
(`apart`, `below`), epochs stay within their word, only an ongoing transaction
has partitions, and the recorded outcome of the current epoch is the one that
the stage shows.

Key definitions: `Transaction.Sound`, `Coordinator.Sound`, `Coordinator.run`.
Key theorems: `Coordinator.sound_act`, `Coordinator.sound_run`.
-/
import Mathlib.Data.List.Pairwise
import FencedLog.Proofs.Coordinator.Turn

namespace FencedLog

theorem zero_le_lastEpoch : (0 : Int) ≤ lastEpoch := by decide

theorem Identity.following_epoch {id : Identity} (h : 0 ≤ id.epoch ∧ id.epoch ≤ lastEpoch)
    (next : Int) : 0 ≤ (id.following next).epoch ∧ (id.following next).epoch ≤ lastEpoch := by
  unfold following
  split
  · exact ⟨Int.le_refl _, zero_le_lastEpoch⟩
  · exact ⟨by show 0 ≤ id.epoch + 1; omega, by show id.epoch + 1 ≤ lastEpoch; omega⟩

/-! ### One entry -/

/-- What holds of every entry. -/
structure Transaction.Sound (t : Transaction) : Prop where
  epoch : 0 ≤ t.identity.epoch ∧ t.identity.epoch ≤ lastEpoch
  idle : t.stage ≠ .ongoing → t.partitions = []
  past : ∀ e o, t.outcomes.get? e = some o → e ≤ t.identity.epoch
  empty : t.stage = .empty → t.outcomes.get? t.identity.epoch = none
  completed : ∀ o, t.stage = .completed o → t.outcomes.get? t.identity.epoch = some o

namespace Transaction

variable {t : Transaction}

theorem sound_fresh (x : String) (n : Int) (timeout : Span) : (fresh x n timeout).Sound where
  epoch := ⟨Int.le_refl _, zero_le_lastEpoch⟩
  idle := fun _ => rfl
  past := fun _ _ h => by simp [fresh] at h
  empty := fun _ => rfl
  completed := fun _ h => by simp [fresh] at h

theorem Sound.enroll (h : t.Sound) (now : Span) (ps : List TopicPartition) :
    (t.enroll now ps).Sound where
  epoch := by rw [enroll_identity]; exact h.epoch
  idle := fun hs => absurd (enroll_stage t now ps) hs
  past := by rw [enroll_outcomes, enroll_identity]; exact h.past
  empty := fun hs => by simp at hs
  completed := fun _ hs => by simp at hs

theorem Sound.complete (h : t.Sound) (o : Outcome) : (t.complete o).1.Sound where
  epoch := h.epoch
  idle := fun _ => rfl
  past := fun e o' he => by
    simp only [Transaction.complete, Table.get?_put] at he
    split at he
    · rename_i heq
      exact Int.le_of_eq heq.symm
    · exact h.past e o' he
  empty := fun hs => by simp at hs
  completed := fun o' hs => by
    rw [complete_stage, Stage.completed.injEq] at hs
    simp [Transaction.complete, hs]

theorem Sound.succeed (h : t.Sound) (n : Int) (timeout : Span) :
    Sound { t.succeed n with timeout := timeout } where
  epoch := by
    show 0 ≤ (t.succeed n).identity.epoch ∧ _
    rw [succeed_identity]
    exact Identity.following_epoch h.epoch n
  idle := fun _ => by
    show (t.succeed n).partitions = []
    rw [succeed_partitions]
    split
    · rfl
    · exact h.idle ‹_›
  past := fun e o he => by
    replace he : (t.succeed n).outcomes.get? e = some o := he
    show e ≤ (t.succeed n).identity.epoch
    rw [succeed_identity, Identity.following]
    rw [succeed_outcomes] at he
    split at he
    · simp at he
    · rename_i hl
      rw [if_neg hl]
      show e ≤ t.identity.epoch + 1
      split at he
      · rw [Table.get?_put] at he
        split at he
        · omega
        · have := h.past e o he
          omega
      · have := h.past e o he
        omega
  empty := fun _ => by
    show (t.succeed n).outcomes.get? (t.succeed n).identity.epoch = none
    rw [succeed_identity, succeed_outcomes, Identity.following]
    split
    · rfl
    · show Table.get? _ (t.identity.epoch + 1) = none
      have hnone : t.outcomes.get? (t.identity.epoch + 1) = none := by
        cases hg : t.outcomes.get? (t.identity.epoch + 1) with
        | none => rfl
        | some o =>
          have := h.past _ _ hg
          omega
      split
      · rw [Table.get?_put, if_neg (by omega)]
        exact hnone
      · exact hnone
  completed := fun o hs => by
    replace hs : (t.succeed n).stage = .completed o := hs
    simp at hs

end Transaction

/-! ### The table -/

namespace Coordinator

/-- What holds of every coordinator that was reached from its start. -/
structure Sound (c : Coordinator) : Prop where
  keys : c.transactions.Distinct
  named : c.Named
  below : ∀ x t, c.describe x = some t → t.identity.producer < c.next
  apart : ∀ x y t u, c.describe x = some t → c.describe y = some u →
    t.identity.producer = u.identity.producer → x = y
  entries : ∀ x t, c.describe x = some t → t.Sound

theorem sound_start (maxTimeout : Span) : (start maxTimeout).Sound where
  keys := Table.distinct_empty
  named := fun _ _ h => by simp [start, describe] at h
  below := fun _ _ h => by simp [start, describe] at h
  apart := fun _ _ _ _ h => by simp [start, describe] at h
  entries := fun _ _ h => by simp [start, describe] at h

variable {c : Coordinator}

/-- The producer of an entry after its turn: its own, or a new one. -/
theorem Turn.producer {op : Op} {lo hi : Int} {x : String} {t? : Option Transaction}
    {t' : Transaction} (h : Turn op lo hi x t? (some t')) :
    (∃ t, t? = some t ∧ t'.identity.producer = t.identity.producer) ∨
      (lo ≤ t'.identity.producer ∧ t'.identity.producer < hi) := by
  cases h with
  | same => exact Or.inl ⟨t', rfl, rfl⟩
  | fresh n timeout hlo hhi => exact Or.inr ⟨hlo, hhi⟩
  | enroll t now ps _ => exact Or.inl ⟨t, rfl, by rw [Transaction.enroll_identity]⟩
  | complete t o _ _ => exact Or.inl ⟨t, rfl, rfl⟩
  | supersede t n timeout _ hlo hhi =>
    simp only [Transaction.succeed_identity, Identity.following]
    split
    · rename_i hl
      exact Or.inr ⟨hlo, hhi hl⟩
    · exact Or.inl ⟨t, rfl, rfl⟩

theorem Turn.named {op : Op} {lo hi : Int} {x : String} {t? : Option Transaction}
    {t' : Transaction} (h : Turn op lo hi x t? (some t')) (hn : ∀ t, t? = some t → t.txid = x) :
    t'.txid = x := by
  cases h with
  | same => exact hn t' rfl
  | fresh n timeout _ _ => rfl
  | enroll t now ps _ => rw [Transaction.enroll_txid, hn t rfl]
  | complete t o _ _ => exact hn t rfl
  | supersede t n timeout _ _ _ =>
    show (t.succeed n).txid = x
    rw [Transaction.succeed_txid, hn t rfl]

theorem Turn.sound {op : Op} {lo hi : Int} {x : String} {t? : Option Transaction}
    {t' : Transaction} (h : Turn op lo hi x t? (some t')) (hs : ∀ t, t? = some t → t.Sound) :
    t'.Sound := by
  cases h with
  | same => exact hs t' rfl
  | fresh n timeout _ _ => exact Transaction.sound_fresh x n timeout
  | enroll t now ps _ => exact (hs t rfl).enroll now ps
  | complete t o _ _ => exact (hs t rfl).complete o
  | supersede t n timeout _ _ _ => exact (hs t rfl).succeed n timeout

/-- Two rows have different producers. -/
def ApartRows (rows : List (String × Transaction)) : Prop :=
  rows.Pairwise fun r s => r.2.identity.producer ≠ s.2.identity.producer

theorem expireRows_producer (now : Span) : ∀ (rows : List (String × Transaction)) (next : Int),
    ∀ r' ∈ (expireRows now rows next).1,
      (∃ r ∈ rows, r'.2.identity.producer = r.2.identity.producer) ∨
        next ≤ r'.2.identity.producer
  | [], _, r', hr => by simp [expireRows] at hr
  | (x, t) :: rows, next, r', hr => by
    rw [expireRows_cons] at hr
    have tail : ∀ {next' : Int}, next ≤ next' → r' ∈ (expireRows now rows next').1 →
        (∃ r ∈ (x, t) :: rows, r'.2.identity.producer = r.2.identity.producer) ∨
          next ≤ r'.2.identity.producer := by
      intro next' hle hm
      rcases expireRows_producer now rows next' r' hm with ⟨r, hr, he⟩ | h
      · exact Or.inl ⟨r, List.mem_cons_of_mem _ hr, he⟩
      · exact Or.inr (Int.le_trans hle h)
    split at hr
    · rcases List.mem_cons.mp hr with rfl | hm
      · simp only [Transaction.succeed_identity, Identity.following]
        split
        · exact Or.inr (Int.le_refl _)
        · exact Or.inl ⟨(x, t), List.mem_cons_self, rfl⟩
      · exact tail (by split <;> omega) hm
    · rcases List.mem_cons.mp hr with rfl | hm
      · exact Or.inl ⟨(x, t), List.mem_cons_self, rfl⟩
      · exact tail (Int.le_refl _) hm

/-- Expiry hands out every new producer once. -/
theorem apart_expireRows (now : Span) : ∀ (rows : List (String × Transaction)) (next : Int),
    ApartRows rows → (∀ r ∈ rows, r.2.identity.producer < next) →
      ApartRows (expireRows now rows next).1
  | [], _, _, _ => List.Pairwise.nil
  | (x, t) :: rows, next, ha, hb => by
    obtain ⟨hhead, htail⟩ := List.pairwise_cons.mp ha
    have ht : t.identity.producer < next := hb _ List.mem_cons_self
    have hrest : ∀ r ∈ rows, r.2.identity.producer < next :=
      fun r hr => hb r (List.mem_cons_of_mem _ hr)
    rw [expireRows_cons]
    split
    · refine List.pairwise_cons.mpr ⟨fun r' hr' => ?_, ?_⟩
      · simp only [Transaction.succeed_identity, Identity.following]
        rcases expireRows_producer now rows _ r' hr' with ⟨r, hr, he⟩ | h
        · have h1 := hhead r hr
          have h2 := hrest r hr
          rw [he]
          split
          · show next ≠ _
            omega
          · exact h1
        · split at h <;> rename_i hl
          · rw [if_pos hl]
            show next ≠ _
            omega
          · rw [if_neg hl]
            show t.identity.producer ≠ _
            omega
      · refine apart_expireRows now rows _ htail fun r hr => ?_
        have h2 := hrest r hr
        split <;> omega
    · refine List.pairwise_cons.mpr ⟨fun r' hr' => ?_, apart_expireRows now rows next htail hrest⟩
      rcases expireRows_producer now rows next r' hr' with ⟨r, hr, he⟩ | h
      · rw [he]
        exact hhead r hr
      · show t.identity.producer ≠ _
        omega

theorem Sound.mem (h : c.Sound) {x : String} {t : Transaction} :
    c.describe x = some t ↔ (x, t) ∈ c.transactions.rows :=
  Table.get?_eq_some_iff h.keys

theorem Sound.apartRows (h : c.Sound) : ApartRows c.transactions.rows := by
  have hkeys : c.transactions.rows.Pairwise fun r s => r.1 ≠ s.1 :=
    List.pairwise_map.mp h.keys
  refine hkeys.imp_of_mem fun {r s} hr hs hne he => ?_
  exact hne (h.apart r.1 s.1 r.2 s.2 (h.mem.mpr hr) (h.mem.mpr hs) he)

theorem distinct_act (h : c.transactions.Distinct) (op : Op) :
    (c.act op).transactions.Distinct := by
  cases op with
  | init x timeout =>
    rcases init_spec c x timeout with ⟨-, hput, -, -⟩ | ⟨t, -, hput, -, -⟩
    · rw [act, hput]
      exact Table.distinct_put h _ _
    · rw [act, hput]
      exact Table.distinct_put h _ _
  | enroll now x id ps =>
    rcases enroll_spec c now x id ps with ⟨t, -, -, -, hput, -⟩ | ⟨e, -, -, hf⟩
    · rw [act, hput]
      exact Table.distinct_put h _ _
    · rw [act, hf.transactions]
      exact h
  | permit x id p =>
    rw [act, (permit_spec c x id p).1.transactions]
    exact h
  | finish x id o =>
    rcases finish_spec c x id o with ⟨t, -, -, -, -, hput, -⟩ | ⟨hf, -⟩
    · rw [act, hput]
      exact Table.distinct_put h _ _
    · rw [act, hf.transactions]
      exact h
  | expire now =>
    show ((expireRows now c.transactions.rows c.next).1.map (·.1)).Nodup
    rw [expireRows_keys]
    exact h

/-- Only expiry moves two entries at once. -/
theorem moved_once (op : Op) (hop : ∀ now, op ≠ .expire now) {x y : String}
    (hx : (c.act op).describe x ≠ c.describe x) (hy : (c.act op).describe y ≠ c.describe y) :
    x = y := by
  have put : ∀ {z : String} {u : Transaction}, (c.act op).transactions = c.transactions.put z u →
      x = y := by
    intro z u hput
    rw [describe_put hput] at hx hy
    by_cases hzx : z = x
    · by_cases hzy : z = y
      · exact hzx.symm.trans hzy
      · exact absurd (if_neg hzy) hy
    · exact absurd (if_neg hzx) hx
  cases op with
  | init z timeout =>
    rcases init_spec c z timeout with ⟨-, hput, -, -⟩ | ⟨t, -, hput, -, -⟩
    · exact put hput
    · exact put hput
  | enroll now z id ps =>
    rcases enroll_spec c now z id ps with ⟨t, -, -, -, hput, -⟩ | ⟨e, -, -, hf⟩
    · exact put hput
    · exact absurd (hf.describe x) hx
  | permit z id p => exact absurd ((permit_spec c z id p).1.describe x) hx
  | finish z id o =>
    rcases finish_spec c z id o with ⟨t, -, -, -, -, hput, -⟩ | ⟨hf, -⟩
    · exact put hput
    · exact absurd (hf.describe x) hx
  | expire now => exact absurd rfl (hop now)

theorem apart_act (h : c.Sound) (op : Op) {x y : String} {t u : Transaction}
    (hx : (c.act op).describe x = some t) (hy : (c.act op).describe y = some u)
    (he : t.identity.producer = u.identity.producer) : x = y := by
  by_cases hop : ∃ now, op = .expire now
  · obtain ⟨now, rfl⟩ := hop
    have hd : (c.act (.expire now)).transactions.Distinct := distinct_act h.keys _
    have hb : ∀ r ∈ c.transactions.rows, r.2.identity.producer < c.next :=
      fun r hr => h.below r.1 r.2 (h.mem.mpr hr)
    have ha := apart_expireRows now c.transactions.rows c.next h.apartRows hb
    by_contra hne
    have hne' : (x, t) ≠ (y, u) := fun heq => hne (Prod.mk.inj heq).1
    have : Std.Symm fun r s : String × Transaction =>
        r.2.identity.producer ≠ s.2.identity.producer := ⟨fun _ _ hrs => hrs.symm⟩
    exact List.Pairwise.forall ha ((Table.get?_eq_some_iff hd).mp hx)
      ((Table.get?_eq_some_iff hd).mp hy) hne' he
  · have hop' : ∀ now, op ≠ .expire now := fun now heq => hop ⟨now, heq⟩
    by_contra hne
    -- one of the two entries is as it was, the other has its old producer or a new one
    have one : ∀ {a b : String} {v w : Transaction}, a ≠ b → (c.act op).describe a = some v →
        c.describe b = some w → v.identity.producer ≠ w.identity.producer := by
      intro a b v w hab ha hb heq
      rcases (ha ▸ turn h.named op a).producer with ⟨t₀, ht₀, hp⟩ | ⟨hlo, -⟩
      · exact hab (h.apart a b t₀ w ht₀ hb (hp.symm.trans heq))
      · have := h.below b w hb
        omega
    by_cases hsx : (c.act op).describe x = c.describe x
    · exact one (fun hyx => hne hyx.symm) hy (hsx ▸ hx) he.symm
    · by_cases hsy : (c.act op).describe y = c.describe y
      · exact one hne hx (hsy ▸ hy) he
      · exact hne (moved_once op hop' hsx hsy)

/-- Every operation keeps the coordinator sound. -/
theorem sound_act (h : c.Sound) (op : Op) : (c.act op).Sound where
  keys := distinct_act h.keys op
  named := fun x t hx => (hx ▸ turn h.named op x).named (h.named x)
  below := fun x t hx => by
    have hle := next_le_act c op
    rcases (hx ▸ turn h.named op x).producer with ⟨t₀, ht₀, hp⟩ | ⟨-, hhi⟩
    · have := h.below x t₀ ht₀
      omega
    · exact hhi
  apart := fun _ _ _ _ hx hy he => apart_act h op hx hy he
  entries := fun x t hx => (hx ▸ turn h.named op x).sound (h.entries x)

/-- The coordinator after a list of operations. -/
def run (c : Coordinator) : List Op → Coordinator
  | [] => c
  | op :: ops => (c.act op).run ops

theorem run_append (ops more : List Op) (c : Coordinator) :
    c.run (ops ++ more) = (c.run ops).run more := by
  induction ops generalizing c with
  | nil => rfl
  | cons op ops ih => exact ih (c.act op)

theorem sound_run {c : Coordinator} (h : c.Sound) (ops : List Op) : (c.run ops).Sound := by
  induction ops generalizing c with
  | nil => exact h
  | cons op ops ih => exact ih (sound_act h op)

end Coordinator
end FencedLog
