/-
# An end request is repeated

Once a transaction has been ended under its identity the coordinator answers
every further request for the same end positively, and does nothing: while the
identity is current by its stage, and later by the outcome of its epoch
(`finish_of_upholds`). It does so for as long as the transactional id keeps its
producer, that is until an identity is given out after the last epoch.

The partitions that a closing hands back are listed once each
(`Coordinator.Listed`).

Key definitions: `TopicPartition.Ordered`, `Coordinator.Listed`,
`Coordinator.Upholds`.
Key theorems: `Coordinator.listed_act`, `Coordinator.finish_of_upholds`,
`Coordinator.upholds_finish`, `Coordinator.upholds_init`.
-/
import Mathlib.Data.String.Basic
import FencedLog.Proofs.Coordinator.Last

namespace FencedLog

/-! ### Ordered sets -/

namespace TopicPartition

/-- The list is in strict order, so it is without repetition. -/
def Ordered (ps : List TopicPartition) : Prop := ps.Pairwise fun p q => before p q = true

theorem before_iff {p q : TopicPartition} : before p q = true ↔
    p.topic < q.topic ∨ (p.topic = q.topic ∧ p.partition < q.partition) := by
  simp [before]

theorem not_before_self (p : TopicPartition) : before p p = false := by simp [before]

theorem before_trans {p q r : TopicPartition} (h : before p q = true) (h' : before q r = true) :
    before p r = true := by
  rw [before_iff] at h h' ⊢
  rcases h with h | ⟨he, h⟩
  · rcases h' with h' | ⟨he', -⟩
    · exact Or.inl (lt_trans h h')
    · exact Or.inl (he' ▸ h)
  · rcases h' with h' | ⟨he', h'⟩
    · exact Or.inl (he ▸ h')
    · exact Or.inr ⟨he.trans he', lt_trans h h'⟩

theorem before_of_ne {p q : TopicPartition} (hne : p ≠ q) (h : before p q = false) :
    before q p = true := by
  rw [before_iff]
  rw [Bool.eq_false_iff, ne_eq, before_iff] at h
  obtain ⟨topic, i⟩ := p
  obtain ⟨topic', j⟩ := q
  rcases lt_trichotomy topic topic' with hlt | rfl | hlt
  · exact absurd (Or.inl hlt) h
  · rcases lt_trichotomy i j with hlt | rfl | hlt
    · exact absurd (Or.inr ⟨rfl, hlt⟩) h
    · exact absurd rfl hne
    · exact Or.inr ⟨rfl, hlt⟩
  · exact Or.inl hlt

theorem Ordered.insert {p : TopicPartition} : ∀ {qs : List TopicPartition}, Ordered qs →
    Ordered (TopicPartition.insert p qs)
  | [], _ => List.pairwise_singleton _ _
  | q :: qs, h => by
    have hq := (List.pairwise_cons.mp h).1
    by_cases hpq : p = q
    · rw [TopicPartition.insert, if_pos hpq]
      exact h
    by_cases hb : before p q = true
    · rw [TopicPartition.insert, if_neg hpq, if_pos hb]
      refine List.pairwise_cons.mpr ⟨fun r hr => ?_, h⟩
      rcases List.mem_cons.mp hr with rfl | hr
      · exact hb
      · exact before_trans hb (hq r hr)
    · rw [TopicPartition.insert, if_neg hpq, if_neg hb]
      refine List.pairwise_cons.mpr ⟨fun r hr => ?_, Ordered.insert (List.pairwise_cons.mp h).2⟩
      rcases mem_insert.mp hr with rfl | hr
      · exact before_of_ne hpq (by simpa using hb)
      · exact hq r hr

theorem Ordered.insertAll : ∀ {ps qs : List TopicPartition}, Ordered qs →
    Ordered (TopicPartition.insertAll ps qs)
  | [], _, h => h
  | p :: ps, qs, h => by
    show Ordered (TopicPartition.insertAll ps (TopicPartition.insert p qs))
    exact Ordered.insertAll (Ordered.insert h)

theorem Ordered.nodup {ps : List TopicPartition} (h : Ordered ps) : ps.Nodup :=
  List.Pairwise.imp (fun {p q} hb => by
    rintro rfl
    rw [not_before_self] at hb
    cases hb) h

end TopicPartition

namespace Coordinator

variable {c : Coordinator} {x : String} {id : Identity} {o : Outcome}

/-- The partitions of every transaction are an ordered set. -/
def Listed (c : Coordinator) : Prop :=
  ∀ x t, c.describe x = some t → TopicPartition.Ordered t.partitions

theorem listed_start (maxTimeout : Span) : (start maxTimeout).Listed := fun x t h => by
  simp [start, describe] at h

theorem listed_act (hs : c.Sound) (h : c.Listed) (op : Op) : (c.act op).Listed := by
  intro x t hd
  have ht := turn hs.named op x
  rw [hd] at ht
  generalize hd' : c.describe x = t? at ht
  cases ht with
  | same => exact h x t hd'
  | fresh => exact List.Pairwise.nil
  | enroll t now ps =>
    unfold Transaction.enroll
    split
    · exact TopicPartition.Ordered.insertAll (h x t hd')
    · exact TopicPartition.Ordered.insertAll List.Pairwise.nil
  | complete => exact List.Pairwise.nil
  | supersede t n timeout =>
    show TopicPartition.Ordered (t.succeed n).partitions
    rw [Transaction.succeed_partitions]
    split
    · exact List.Pairwise.nil
    · exact h x t hd'

theorem listed_run (hs : c.Sound) (h : c.Listed) (ops : List Op) : (c.run ops).Listed := by
  induction ops generalizing c with
  | nil => exact h
  | cons op ops ih => exact ih (sound_act hs op) (listed_act hs h op)

/-! ### The end that was agreed to -/

/-- The last transaction of this identity has ended like this, nothing has been
begun since, and the transactional id has kept its producer. -/
def Upholds (c : Coordinator) (x : String) (id : Identity) (o : Outcome) : Prop :=
  c.Remembers x id o ∧ ∀ t, c.describe x = some t →
    t.stage ≠ .ongoing ∧ t.identity.producer = id.producer

/-- A request for the same end is agreed to, and there is nothing to do. -/
theorem finish_of_upholds (h : c.Upholds x id o) : c.finish x id o = (c, .ok none) := by
  obtain ⟨⟨t, hd, hle, hstage, hout⟩, hall⟩ := h
  obtain ⟨-, hp⟩ := hall t hd
  unfold finish
  simp only [hd]
  rcases hle with rfl | hlt
  · -- the identity is the current one
    rw [if_neg (by omega), Transaction.validate_ok_iff.mpr rfl]
    simp [hstage rfl]
  · rw [Identity.lt_iff] at hlt
    rw [if_pos (by omega), finishStale, hout hp]
    simp

/-- A request to end what is under way is carried out. -/
theorem finish_of_ongoing {t : Transaction} (hd : c.describe x = some t) (hs : t.stage = .ongoing)
    (o : Outcome) : (c.finish x t.identity o).2 = .ok (some (t.complete o).2) ∧
      (c.finish x t.identity o).1.transactions = c.transactions.put t.txid (t.complete o).1 := by
  unfold finish
  simp [hd, Transaction.validate_ok_iff.mpr rfl, hs, keep, Transaction.complete]

/-- It is upheld from then on. -/
theorem upholds_finish (hs : c.Sound) (h : c.UnderWay x id) (o : Outcome) :
    (c.act (.finish x id o)).Upholds x id o := by
  refine ⟨remembers_ended hs h (finish_of_underWay hs h o), fun u hu => ?_⟩
  obtain ⟨t, hd, hongoing, rfl⟩ := h
  have hput := (finish_of_ongoing hd hongoing o).2
  have hu' := (describe_put hput x).trans (if_pos (hs.named x t hd))
  obtain rfl := Option.some.inj (hu.symm.trans hu')
  exact ⟨by simp, rfl⟩

/-- A new identity of the same producer changes nothing about it. -/
theorem upholds_init (hs : c.Sound) (h : c.Upholds x id o) {timeout : Span}
    (hlast : ∀ t, c.describe x = some t → t.identity.epoch ≠ lastEpoch) :
    (c.act (.init x timeout)).Upholds x id o := by
  refine ⟨remembers_act hs h.1 (by simp), fun u hu => ?_⟩
  obtain ⟨⟨t, hd, -⟩, hall⟩ := h
  obtain ⟨hstage, hp⟩ := hall t hd
  rcases init_spec c x timeout with ⟨hnone, -⟩ | ⟨t', hd', hput, -⟩
  · rw [hd] at hnone
    cases hnone
  · obtain rfl := Option.some.inj (hd.symm.trans hd')
    have hu' := (describe_put hput x).trans (if_pos (hs.named x t hd))
    obtain rfl := Option.some.inj (hu.symm.trans hu')
    refine ⟨?_, ?_⟩
    · show (t.succeed c.next).stage ≠ .ongoing
      simp
    · show (t.succeed c.next).identity.producer = id.producer
      rw [Transaction.succeed_identity, Identity.following, if_neg (hlast t hd)]
      exact hp

end Coordinator
end FencedLog
