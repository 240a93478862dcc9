/-
# The last transaction of an identity

Once a transaction has ended the coordinator remembers how, for as long as
nobody enrolls under its identity again: by the stage while the identity is
current, and by the outcome of the epoch when it is not (`Remembers`). An end
request for it is then answered positively only if it asks for what the
transaction became (`Remembers.agrees`).

Key definition: `Coordinator.Remembers`.
Key theorems: `Coordinator.remembers_act`, `Coordinator.remembers_ended`,
`Coordinator.Remembers.agrees`, `Coordinator.enrolled_act`.
-/
import FencedLog.Proofs.Coordinator.Closing
import FencedLog.Proofs.Coordinator.Fencing

namespace FencedLog
namespace Coordinator

variable {c : Coordinator} {x : String} {id : Identity} {o : Outcome}

/-- The last transaction of this identity is known to have ended like this. -/
def Remembers (c : Coordinator) (x : String) (id : Identity) (o : Outcome) : Prop :=
  ∃ t, c.describe x = some t ∧ (t.identity = id ∨ id < t.identity) ∧
    (t.identity = id → t.stage = .completed o) ∧
    (t.identity.producer = id.producer → t.outcomes.get? id.epoch = some o)

/-- An identity that is not current any more has an epoch of its own. -/
theorem epoch_ne {a b : Identity} (h : a < b) (hp : b.producer = a.producer) : b.epoch ≠ a.epoch := by
  rw [Identity.lt_iff] at h
  omega

/-- The next identity of an entry is new. -/
theorem succeed_new {t : Transaction} {n : Int} (hn : t.identity.producer < n)
    (hle : t.identity = id ∨ id < t.identity) : id < (t.succeed n).identity := by
  rw [Transaction.succeed_identity]
  have hlt := Identity.lt_following hn
  rcases hle with rfl | hle
  · exact hlt
  · exact Identity.lt_trans hle hlt

/-- The outcome of an epoch outlasts the identity, unless the producer changes. -/
theorem succeed_outcome {t : Transaction} {n : Int} (hn : t.identity.producer < n)
    (hle : t.identity = id ∨ id < t.identity)
    (hp : (t.succeed n).identity.producer = id.producer) :
    t.identity.producer = id.producer ∧ (t.succeed n).outcomes.get? id.epoch =
      if t.stage = .ongoing ∧ t.identity = id then some .abort
      else t.outcomes.get? id.epoch := by
  rw [Transaction.succeed_identity, Identity.following] at hp
  by_cases he : t.identity.epoch = lastEpoch
  · -- a new producer is beyond every identity so far
    rw [if_pos he] at hp
    replace hp : n = id.producer := hp
    rcases hle with rfl | hle
    · omega
    · rw [Identity.lt_iff] at hle
      omega
  · rw [if_neg he] at hp
    replace hp : t.identity.producer = id.producer := hp
    refine ⟨hp, ?_⟩
    rw [Transaction.succeed_outcomes, if_neg he]
    by_cases hs : t.stage = .ongoing
    · rw [if_pos hs, Table.get?_put]
      rcases hle with rfl | hle
      · simp [hs]
      · rw [if_neg (epoch_ne hle hp), if_neg fun h => Identity.ne_of_lt hle h.2.symm]
    · rw [if_neg hs, if_neg fun h => hs h.1]

/-- What the coordinator remembers it remembers until somebody enrolls under
the identity. -/
theorem remembers_act (hs : c.Sound) (h : c.Remembers x id o) {op : Op}
    (hop : ∀ now ps, op ≠ .enroll now x id ps) : (c.act op).Remembers x id o := by
  obtain ⟨t, hd, hle, hstage, hout⟩ := h
  have ht := turn hs.named op x
  rw [hd] at ht
  generalize hd' : (c.act op).describe x = t'? at ht
  cases ht with
  | same => exact ⟨t, hd', hle, hstage, hout⟩
  | enroll _ now ps he =>
    have hne : t.identity ≠ id := fun hid => hop now ps (hid ▸ he)
    refine ⟨_, hd', ?_, fun hid => absurd ((t.enroll_identity now ps).symm.trans hid) hne, ?_⟩
    · rwa [Transaction.enroll_identity]
    · rwa [Transaction.enroll_identity, Transaction.enroll_outcomes]
  | complete _ o' _ hongoing =>
    have hne : t.identity ≠ id := fun hid => by
      rw [hstage hid] at hongoing
      cases hongoing
    have hlt := hle.resolve_left hne
    refine ⟨_, hd', hle, fun hid => absurd hid hne, fun hp => ?_⟩
    have hget : (t.complete o').1.outcomes.get? id.epoch = _ :=
      Table.get?_put t.outcomes t.identity.epoch id.epoch o'
    rw [hget, if_neg (epoch_ne hlt hp)]
    exact hout hp
  | supersede _ n timeout _ hlo _ =>
    have hn : t.identity.producer < n := Int.lt_of_lt_of_le (hs.below x t hd) hlo
    have hlt := succeed_new hn hle
    refine ⟨_, hd', Or.inr hlt, fun hid => absurd hid.symm (Identity.ne_of_lt hlt), fun hp => ?_⟩
    obtain ⟨hp', hget⟩ := succeed_outcome hn hle hp
    refine hget.trans ?_
    rw [if_neg fun hc => ?_]
    · exact hout hp'
    · rw [hstage hc.2] at hc
      exact nomatch hc.1

/-- A transaction that an operation ends is remembered. -/
theorem remembers_ended (hs : c.Sound) {op : Op} (hw : c.UnderWay x id)
    (hno : ¬ (c.act op).UnderWay x id) : (c.act op).Remembers x id op.outcome := by
  obtain ⟨t, hd, hongoing, rfl⟩ := hw
  have ht := turn hs.named op x
  rw [hd] at ht
  generalize hd' : (c.act op).describe x = t'? at ht
  cases ht with
  | same => exact absurd ⟨t, hd', hongoing, rfl⟩ hno
  | enroll _ now ps _ =>
    exact absurd ⟨_, hd', t.enroll_stage now ps, t.enroll_identity now ps⟩ hno
  | complete _ o' he _ =>
    subst he
    exact ⟨_, hd', Or.inl rfl, fun _ => rfl, fun _ => Table.get?_put_self _ _ _⟩
  | supersede _ n timeout he hlo _ =>
    have habort : op.outcome = .abort := by
      rcases he with ⟨timeout, rfl⟩ | ⟨now, rfl, -⟩ <;> rfl
    have hn : t.identity.producer < n := Int.lt_of_lt_of_le (hs.below x t hd) hlo
    have hlt := succeed_new hn (Or.inl rfl)
    refine ⟨_, hd', Or.inr hlt, fun hid => absurd hid.symm (Identity.ne_of_lt hlt), fun hp => ?_⟩
    rw [habort]
    exact (succeed_outcome hn (Or.inl rfl) hp).2.trans (if_pos ⟨hongoing, rfl⟩)

/-- To ask for the end of a transaction that has ended is answered positively
only if it ended so. -/
theorem Remembers.agrees (h : c.Remembers x id o) {o' : Outcome} {r : Option Closing}
    (ha : (c.finish x id o').2 = .ok r) : o' = o := by
  obtain ⟨t, hd, hle, hstage, hout⟩ := h
  unfold finish at ha
  simp only [hd] at ha
  split at ha
  · rename_i hc
    unfold finishStale at ha
    rw [hout hc.1.symm] at ha
    simp only at ha
    split at ha
    · rename_i he
      exact he.symm
    · simp [refuse] at ha
  · split at ha
    · simp at ha
    · rename_i hv
      obtain rfl := Transaction.validate_ok_iff.mp hv
      rw [hstage rfl] at ha
      simp only at ha
      split at ha
      · rename_i he
        exact he.symm
      · cases ha

/-- To ask for the end of a transaction that is under way ends it. -/
theorem finish_of_underWay (hs : c.Sound) (h : c.UnderWay x id) (o : Outcome) :
    ¬ (c.act (.finish x id o)).UnderWay x id := by
  obtain ⟨t, hd, hongoing, rfl⟩ := h
  rcases finish_spec c x t.identity o with ⟨u, hu, -, -, -, hput, -⟩ | ⟨-, hno⟩
  · rw [hd] at hu
    obtain rfl := Option.some.inj hu
    have hd' := (describe_put hput x).trans (if_pos (hs.named x t hd))
    rw [act, underWay_iff hd']
    simp
  · refine absurd ?_ (hno (t.complete o).2)
    unfold finish
    simp [hd, Transaction.validate_ok_iff.mpr rfl, hongoing]

/-- A transaction that is under way with a partition had it before, or has just
got it by enrolling. -/
theorem enrolled_act (hs : c.Sound) {op : Op} {t : Transaction} {p : TopicPartition}
    (hd : (c.act op).describe x = some t) (ho : t.stage = .ongoing) (hp : p ∈ t.partitions) :
    (∃ t', c.describe x = some t' ∧ t'.stage = .ongoing ∧ t'.identity = t.identity ∧
      p ∈ t'.partitions) ∨ ∃ now ps, op = .enroll now x t.identity ps ∧ p ∈ ps := by
  have ht := turn hs.named op x
  rw [hd] at ht
  generalize c.describe x = t? at ht ⊢
  cases ht with
  | same => exact Or.inl ⟨t, rfl, ho, rfl, hp⟩
  | fresh n timeout _ _ => simp [Transaction.fresh] at ho
  | enroll t now ps he =>
    rw [Transaction.enroll_identity]
    rcases t.mem_enroll_partitions.mp hp with hp | ⟨ho', hp⟩
    · exact Or.inr ⟨now, ps, he, hp⟩
    · exact Or.inl ⟨t, rfl, ho', rfl, hp⟩
  | complete t o _ _ => simp at ho
  | supersede t n timeout _ _ _ =>
    replace ho : (t.succeed n).stage = .ongoing := ho
    simp at ho

/-- A transaction ends by its own end request, or is aborted when its identity
is superseded. -/
theorem passed_of_ended (hs : c.Sound) {op : Op} (hw : c.UnderWay x id)
    (hno : ¬ (c.act op).UnderWay x id) : (∃ o, op = .finish x id o) ∨
      (op.outcome = .abort ∧ (c.act op).Passed x id) := by
  obtain ⟨t, hd, hongoing, rfl⟩ := hw
  have ht := turn hs.named op x
  rw [hd] at ht
  generalize hd' : (c.act op).describe x = t'? at ht
  cases ht with
  | same => exact absurd ⟨t, hd', hongoing, rfl⟩ hno
  | enroll _ now ps _ =>
    exact absurd ⟨_, hd', t.enroll_stage now ps, t.enroll_identity now ps⟩ hno
  | complete _ o' he _ => exact Or.inl ⟨o', he⟩
  | supersede _ n timeout he hlo _ =>
    refine Or.inr ⟨?_, _, hd', ?_⟩
    · rcases he with ⟨timeout, rfl⟩ | ⟨now, rfl, -⟩ <;> rfl
    · exact succeed_new (Int.lt_of_lt_of_le (hs.below x t hd) hlo) (Or.inl rfl)

/-! ### Refusals -/

/-- To the current identity permission may be refused, but it is not fenced. -/
theorem permit_current {t : Transaction} (hd : c.describe x = some t) {p : TopicPartition}
    {e : BrokerError} (h : (c.permit x t.identity p).2 = .error e) : e.isFencing = false := by
  unfold permit at h
  rw [authorize_eq_ok_iff.mpr ⟨hd, rfl⟩] at h
  simp only at h
  split at h
  · rw [← Except.error.inj h]
    rfl
  · split at h
    · cases h
    · rw [← Except.error.inj h]
      rfl

/-- To the current identity an end may be refused, but it is not fenced. -/
theorem finish_current {t : Transaction} (hd : c.describe x = some t) {o : Outcome}
    {e : BrokerError} (h : (c.finish x t.identity o).2 = .error e) : e.isFencing = false := by
  unfold finish at h
  simp only [hd, Transaction.validate_ok_iff.mpr] at h
  rw [if_neg (by omega)] at h
  split at h
  · cases h
  · cases h
  · split at h
    · cases h
    · rw [← Except.error.inj h]
      rfl

/-- A refused end request ends nothing. -/
theorem describe_of_unfinished {o : Outcome} {e : BrokerError}
    (h : (c.finish x id o).2 = .error e) (y : String) :
    (c.finish x id o).1.describe y = c.describe y := by
  rcases finish_spec c x id o with ⟨t, -, -, -, hok, -⟩ | ⟨hf, -⟩
  · rw [hok] at h
    cases h
  · exact hf.describe y

end Coordinator
end FencedLog
