/-
# An end request is answered from history

The coordinator answers an end request in one of two ways: for an epoch that is
over from the outcome it has on record, for the current one by the stage. Both
follow the same rule, and the rule needs only what has happened so far
(`finish_settled`). Where no transaction has ended under the identity there is
nothing to do, where the last one ended as it is asked for it is agreed to, and
any other request is refused.

The history of a run lists what was enrolled and what was ended, under which
identity (`Deed`). The table recalls it (`Recalls`): the outcome on record for an
epoch is that of the last transaction that ended under it, and the partitions
of an ongoing transaction are those enrolled since. Where a producer is given
up the outcomes are dropped with it, and the new one has no history yet.

Key definitions: `Coordinator.Deed`, `Coordinator.history`, `Coordinator.last`,
`Coordinator.enlisted`, `Coordinator.Recalls`, `Coordinator.Judges`.
Key theorems: `Coordinator.recalls_act`, `Coordinator.finish_settled`,
`Coordinator.judges_run`.
-/
import FencedLog.Proofs.Coordinator.Repeat

namespace FencedLog
namespace Coordinator

/-! ### History -/

/-- What has been done under an identity. -/
inductive Deed where
  | enrolled (id : Identity) (ps : List TopicPartition)
  | ended (id : Identity) (o : Outcome)
deriving DecidableEq

namespace Deed

def identity : Deed → Identity
  | enrolled id _ => id
  | ended id _ => id

/-- The outcome, if the deed has ended a transaction of `id`. -/
def end? (id : Identity) : Deed → Option Outcome
  | enrolled .. => none
  | ended id' o => if id' = id then some o else none

/-- The partitions of the transaction of `id`, which were `ps` before. -/
def enlist (id : Identity) (ps : List TopicPartition) : Deed → List TopicPartition
  | enrolled id' qs => if id' = id then ps ++ qs else ps
  | ended id' _ => if id' = id then [] else ps

theorem end?_eq_some {id : Identity} {d : Deed} {o : Outcome} :
    d.end? id = some o ↔ d = .ended id o := by
  cases d with
  | enrolled => simp [end?]
  | ended id' o' =>
    rw [end?, ended.injEq]
    split
    · rename_i h
      simp [h]
    · rename_i h
      simp [h]

end Deed

/-- The partitions that an operation enrolls. -/
def enrollments (c : Coordinator) : Op → List Deed
  | .enroll now x id ps =>
    match (c.enroll now x id ps).2 with
    | .ok () => [.enrolled id ps]
    | .error _ => []
  | .init .. | .permit .. | .finish .. | .expire .. => []

/-- The transactions that an operation ends, under the identities they had. -/
def endings (c : Coordinator) (op : Op) : List Deed :=
  (c.closings op).filterMap fun closing =>
    (c.describe closing.txid).map fun t => .ended t.identity closing.outcome

def deeds (c : Coordinator) (op : Op) : List Deed := c.enrollments op ++ c.endings op

/-- What a run has done, in order. -/
def history (c : Coordinator) : List Op → List Deed
  | [] => []
  | op :: ops => c.deeds op ++ (c.act op).history ops

/-- How the last transaction of this identity ended, if one has. -/
def last (h : List Deed) (id : Identity) : Option Outcome := (h.filterMap (Deed.end? id)).getLast?

/-- The partitions enrolled under this identity since its last transaction
ended. -/
def enlisted (h : List Deed) (id : Identity) : List TopicPartition := h.foldl (Deed.enlist id) []

section History

variable {h h' : List Deed} {id : Identity} {o : Outcome}

theorem last_append : last (h ++ h') id = (last h' id).or (last h id) := by
  rw [last, List.filterMap_append, List.getLast?_append]
  rfl

/-- There is no last outcome exactly when nothing has ended under the identity. -/
theorem last_eq_none_iff : last h id = none ↔ ∀ o, .ended id o ∉ h := by
  rw [last, List.getLast?_eq_none_iff, List.filterMap_eq_nil_iff]
  constructor
  · intro hall o hm
    have := hall _ hm
    simp [Deed.end?] at this
  · intro hno d hd
    cases he : d.end? id with
    | none => rfl
    | some o => exact absurd (Deed.end?_eq_some.mp he ▸ hd) (hno o)

/-- Where all ends of an identity are alike, so is the last one. -/
theorem last_eq_some (hm : .ended id o ∈ h) (hall : ∀ o', .ended id o' ∈ h → o' = o) :
    last h id = some o := by
  have hne : h.filterMap (Deed.end? id) ≠ [] :=
    List.ne_nil_of_mem (List.mem_filterMap.mpr ⟨_, hm, Deed.end?_eq_some.mpr rfl⟩)
  rw [last, List.getLast?_eq_some_getLast hne]
  obtain ⟨d, hd, he⟩ := List.mem_filterMap.mp (List.getLast_mem hne)
  exact congrArg some (hall _ (Deed.end?_eq_some.mp he ▸ hd))

theorem enlisted_append : enlisted (h ++ h') id = h'.foldl (Deed.enlist id) (enlisted h id) :=
  List.foldl_append

/-- What is done under other identities does not matter. -/
theorem foldl_enlist_of_ne (hne : ∀ d ∈ h, d.identity ≠ id) (ps : List TopicPartition) :
    h.foldl (Deed.enlist id) ps = ps := by
  induction h with
  | nil => rfl
  | cons d h ih =>
    have hd : Deed.enlist id ps d = ps := by
      have := hne d List.mem_cons_self
      cases d <;> exact if_neg this
    rw [List.foldl_cons, hd]
    exact ih fun d' hd' => hne d' (List.mem_cons_of_mem _ hd')

theorem foldl_enlist_nil (hno : ∀ ps, .enrolled id ps ∉ h) :
    h.foldl (Deed.enlist id) [] = [] := by
  induction h with
  | nil => rfl
  | cons d h ih =>
    have hd : Deed.enlist id [] d = [] := by
      cases d with
      | ended => simp [Deed.enlist]
      | enrolled id' qs =>
        refine if_neg fun he => hno qs ?_
        rw [he]
        exact List.mem_cons_self
    rw [List.foldl_cons, hd]
    exact ih fun ps hp => hno ps (List.mem_cons_of_mem _ hp)

/-- An end leaves nothing, unless something is enrolled again. -/
theorem foldl_enlist_of_ended (hm : .ended id o ∈ h) (hno : ∀ ps, .enrolled id ps ∉ h)
    (ps : List TopicPartition) : h.foldl (Deed.enlist id) ps = [] := by
  induction h generalizing ps with
  | nil => simp at hm
  | cons d h ih =>
    have hno' : ∀ ps, .enrolled id ps ∉ h := fun ps hp => hno ps (List.mem_cons_of_mem _ hp)
    rw [List.foldl_cons]
    rcases List.mem_cons.mp hm with rfl | hm
    · rw [Deed.enlist, if_pos rfl]
      exact foldl_enlist_nil hno'
    · exact ih hm hno' _

end History

variable {c : Coordinator} {x : String} {id : Identity} {o : Outcome}

theorem mem_endings (hs : c.Sound) {op : Op} {d : Deed} : d ∈ c.endings op ↔
    ∃ y id, d = .ended id op.outcome ∧ c.UnderWay y id ∧ ¬ (c.act op).UnderWay y id := by
  rw [endings, List.mem_filterMap]
  constructor
  · rintro ⟨closing, hc, hd⟩
    obtain ⟨t, ht, hongoing, heq, hno⟩ := (mem_closings hs).mp hc
    rw [ht, Option.map_some, Option.some.injEq] at hd
    refine ⟨closing.txid, t.identity, ?_, ⟨t, ht, hongoing, rfl⟩, hno⟩
    rw [← hd, heq]
    rfl
  · rintro ⟨y, id, rfl, ⟨t, ht, hongoing, rfl⟩, hno⟩
    refine ⟨_, mem_closings_of_ended hs ht hongoing hno, ?_⟩
    have hname : (t.complete op.outcome).2.txid = y := hs.named y t ht
    rw [hname, ht]
    rfl

theorem mem_enrollments {op : Op} {d : Deed} : d ∈ c.enrollments op ↔
    ∃ now y id ps, op = .enroll now y id ps ∧ d = .enrolled id ps ∧
      (c.enroll now y id ps).2 = .ok () := by
  cases op with
  | enroll now y id ps =>
    rw [enrollments]
    constructor
    · intro hd
      split at hd
      · rename_i hok
        exact ⟨now, y, id, ps, rfl, List.mem_singleton.mp hd, hok⟩
      · simp at hd
    · rintro ⟨now, y, id, ps, he, rfl, hok⟩
      cases he
      rw [hok]
      exact List.mem_singleton.mpr rfl
  | _ => simp [enrollments]

/-- Whatever is done is done under a current identity. -/
theorem current_of_mem_deeds (hs : c.Sound) {op : Op} {d : Deed} (hd : d ∈ c.deeds op) :
    ∃ y t, c.describe y = some t ∧ t.identity = d.identity := by
  rcases List.mem_append.mp hd with hd | hd
  · obtain ⟨now, y, id, ps, -, rfl, hok⟩ := mem_enrollments.mp hd
    rcases enroll_spec c now y id ps with ⟨t, ht, hid, -⟩ | ⟨e, -, he, -⟩
    · exact ⟨y, t, ht, hid.symm⟩
    · rw [hok] at he
      cases he
  · obtain ⟨y, id, rfl, ⟨t, ht, -, hid⟩, -⟩ := (mem_endings hs).mp hd
    exact ⟨y, t, ht, hid⟩

theorem ended_mem_deeds (hs : c.Sound) {op : Op} : .ended id o ∈ c.deeds op ↔
    o = op.outcome ∧ ∃ y, c.UnderWay y id ∧ ¬ (c.act op).UnderWay y id := by
  rw [deeds, List.mem_append, mem_endings hs]
  constructor
  · rintro (hd | ⟨y, id', he, hw⟩)
    · obtain ⟨_, _, _, _, -, he, -⟩ := mem_enrollments.mp hd
      cases he
    · obtain ⟨rfl, rfl⟩ := Deed.ended.inj he
      exact ⟨rfl, y, hw⟩
  · rintro ⟨rfl, y, hw⟩
    exact Or.inr ⟨y, id, rfl, hw⟩

/-- An operation that ends the transaction of an identity ends it last. -/
theorem last_deeds_of_ended (hs : c.Sound) {op : Op} (hw : c.UnderWay x id)
    (hno : ¬ (c.act op).UnderWay x id) : last (c.deeds op) id = some op.outcome :=
  last_eq_some ((ended_mem_deeds hs).mpr ⟨rfl, x, hw, hno⟩) fun _ hm => ((ended_mem_deeds hs).mp hm).1

/-- Only the transactional id that has the producer ends something under it. -/
theorem ended_not_mem_deeds (hs : c.Sound) {op : Op} {t : Transaction} (hd : c.describe x = some t)
    (hp : t.identity.producer = id.producer)
    (hkeep : c.UnderWay x id → (c.act op).UnderWay x id) (o : Outcome) :
    .ended id o ∉ c.deeds op := by
  intro hm
  obtain ⟨-, y, ⟨u, hu, hongoing, rfl⟩, hno⟩ := (ended_mem_deeds hs).mp hm
  obtain rfl := hs.apart x y t u hd hu hp
  exact hno (hkeep ⟨u, hu, hongoing, rfl⟩)

theorem enrolled_mem_deeds (hs : c.Sound) {op : Op} {ps : List TopicPartition} :
    .enrolled id ps ∈ c.deeds op ↔
      ∃ now y, op = .enroll now y id ps ∧ (c.enroll now y id ps).2 = .ok () := by
  rw [deeds, List.mem_append, mem_endings hs, mem_enrollments]
  constructor
  · rintro (⟨now, y, _, _, he, hd, hok⟩ | ⟨_, _, hd, -⟩)
    · obtain ⟨rfl, rfl⟩ := Deed.enrolled.inj hd
      exact ⟨now, y, he, hok⟩
    · cases hd
  · rintro ⟨now, y, he, hok⟩
    exact Or.inl ⟨now, y, id, ps, he, rfl, hok⟩

/-! ### The table recalls history -/

/-- What the table says about the history so far. -/
structure Recalls (c : Coordinator) (h : List Deed) : Prop where
  /-- Everything was done under an identity that was given out. -/
  given : ∀ d ∈ h, ∃ y, c.Had y d.identity
  outcomes : ∀ x t, c.describe x = some t → ∀ e,
    t.outcomes.get? e = last h ⟨t.identity.producer, e⟩
  ongoing : ∀ x t, c.describe x = some t → t.stage = .ongoing →
    ∀ p, p ∈ t.partitions ↔ p ∈ enlisted h t.identity
  idle : ∀ x t, c.describe x = some t → t.stage ≠ .ongoing → enlisted h t.identity = []

theorem recalls_start (maxTimeout : Span) : (start maxTimeout).Recalls [] where
  given := fun _ hd => by simp at hd
  outcomes := fun _ _ hd => by simp [start, describe] at hd
  ongoing := fun _ _ hd => by simp [start, describe] at hd
  idle := fun _ _ hd => by simp [start, describe] at hd

variable {h : List Deed}

theorem given_act (hs : c.Sound) (hr : c.Recalls h) (op : Op) :
    ∀ d ∈ h ++ c.deeds op, ∃ y, c.Had y d.identity := by
  intro d hd
  rcases List.mem_append.mp hd with hd | hd
  · exact hr.given d hd
  · obtain ⟨y, t, ht, hid⟩ := current_of_mem_deeds hs hd
    exact ⟨y, hid ▸ hs.had ht⟩

/-- An identity of a new producer, and the next one of an old producer, have no
history. -/
theorem ne_following (hs : c.Sound) (hr : c.Recalls h) {op : Op} {t : Transaction} {n : Int}
    (hd : c.describe x = some t) (hn : c.next ≤ n) :
    ∀ d ∈ h ++ c.deeds op, d.identity ≠ t.identity.following n := by
  intro d hm he
  obtain ⟨y, hy⟩ := given_act hs hr op d hm
  have hlt := hy.producer_lt hs
  rw [he, Identity.following] at hlt hy
  split at hlt
  · replace hlt : n < c.next := hlt
    omega
  · rename_i hl
    rw [if_neg hl] at hy
    obtain rfl := hy.alone x t hd rfl
    obtain ⟨u, hu, hle⟩ := hy.reached
    obtain rfl := Option.some.inj (hd.symm.trans hu)
    rcases hle with hle | hle
    · have := congrArg Identity.epoch hle
      simp only at this
      omega
    · rw [Identity.lt_iff] at hle
      simp only at hle
      omega

theorem ne_of_next_le (hs : c.Sound) (hr : c.Recalls h) {op : Op} (hn : c.next ≤ id.producer) :
    ∀ d ∈ h ++ c.deeds op, d.identity ≠ id := by
  intro d hm he
  obtain ⟨y, hy⟩ := given_act hs hr op d hm
  have hlt := hy.producer_lt hs
  rw [he] at hlt
  omega

theorem last_of_ne (hne : ∀ d ∈ h, d.identity ≠ id) : last h id = none :=
  last_eq_none_iff.mpr fun _ hm => hne _ hm rfl

theorem outcomes_act (hs : c.Sound) (hr : c.Recalls h) (op : Op) {t' : Transaction}
    (hd' : (c.act op).describe x = some t') (e : Int) :
    t'.outcomes.get? e = last (h ++ c.deeds op) ⟨t'.identity.producer, e⟩ := by
  have hturn := turn hs.named op x
  rw [hd'] at hturn
  generalize hd : c.describe x = t? at hturn
  -- an operation that ends nothing under the identity leaves what was last
  have keep : ∀ {t : Transaction}, c.describe x = some t →
      (c.UnderWay x ⟨t.identity.producer, e⟩ → (c.act op).UnderWay x ⟨t.identity.producer, e⟩) →
      t.outcomes.get? e = last (h ++ c.deeds op) ⟨t.identity.producer, e⟩ := by
    intro t ht hkeep
    have hnone : last (c.deeds op) ⟨t.identity.producer, e⟩ = none :=
      last_eq_none_iff.mpr (ended_not_mem_deeds hs ht rfl hkeep)
    rw [last_append, hnone, Option.none_or, hr.outcomes x t ht e]
  cases hturn with
  | same => exact keep hd fun ⟨u, hu, hw⟩ => ⟨t', hd', Option.some.inj (hd.symm.trans hu) ▸ hw⟩
  | fresh n timeout hlo _ => exact (last_of_ne (ne_of_next_le hs hr hlo)).symm
  | enroll t now ps _ =>
    rw [Transaction.enroll_outcomes, Transaction.enroll_identity]
    refine keep hd fun ⟨u, hu, _, hid⟩ => ⟨_, hd', t.enroll_stage now ps, ?_⟩
    rw [t.enroll_identity]
    exact Option.some.inj (hd.symm.trans hu) ▸ hid
  | complete t o hop hongoing =>
    have hget : (t.complete o).1.outcomes.get? e = _ :=
      Table.get?_put t.outcomes t.identity.epoch e o
    rw [hget]
    split
    · rename_i he
      have hw : c.UnderWay x t.identity := ⟨t, hd, hongoing, rfl⟩
      have hno : ¬ (c.act op).UnderWay x t.identity := by simp [underWay_iff hd']
      have hid : (⟨(t.complete o).1.identity.producer, e⟩ : Identity) = t.identity := by
        rw [← he]
        rfl
      rw [last_append, hid, last_deeds_of_ended hs hw hno, hop]
      rfl
    · rename_i he
      refine keep hd fun ⟨u, hu, _, hid⟩ => absurd ?_ he
      obtain rfl := Option.some.inj (hd.symm.trans hu)
      rw [hid]
  | supersede t n timeout hop hlo _ =>
    show (t.succeed n).outcomes.get? e = last _ ⟨(t.succeed n).identity.producer, e⟩
    rw [Transaction.succeed_outcomes, Transaction.succeed_identity, Identity.following]
    by_cases hl : t.identity.epoch = lastEpoch
    · rw [if_pos hl, if_pos hl]
      exact (last_of_ne (ne_of_next_le hs hr hlo)).symm
    rw [if_neg hl, if_neg hl]
    show _ = last _ ⟨t.identity.producer, e⟩
    by_cases hw : c.UnderWay x ⟨t.identity.producer, e⟩
    · -- the ongoing transaction is aborted
      have habort : op.outcome = .abort := by
        rcases hop with ⟨timeout, rfl⟩ | ⟨now, rfl, -⟩ <;> rfl
      obtain ⟨hongoing, hid⟩ := (underWay_iff hd _).mp hw
      have hno : ¬ (c.act op).UnderWay x ⟨t.identity.producer, e⟩ := by
        rw [underWay_iff hd']
        show ¬ ((t.succeed n).stage = .ongoing ∧ _)
        simp
      rw [last_append, last_deeds_of_ended hs hw hno, habort, if_pos hongoing, hid]
      exact Table.get?_put_self _ _ _
    · rw [← keep hd fun h => absurd h hw]
      split
      · rename_i hongoing
        refine Table.get?_put_of_ne _ (fun he => hw ?_) _
        exact ⟨t, hd, hongoing, by rw [← he]⟩
      · rfl

/-- Where an operation has no part in the transaction of an identity, what the
transaction has enrolled stays as it is. -/
theorem enlisted_keep {op : Op} (hend : ∀ o, .ended id o ∉ c.deeds op)
    (henroll : ∀ ps, .enrolled id ps ∉ c.deeds op) :
    enlisted (h ++ c.deeds op) id = enlisted h id := by
  rw [enlisted_append]
  refine foldl_enlist_of_ne (fun d hm he => ?_) _
  cases d with
  | enrolled id' ps => exact henroll ps (he ▸ hm)
  | ended id' o => exact hend o (he ▸ hm)

theorem enlisted_of_ne (hne : ∀ d ∈ h, d.identity ≠ id) : enlisted h id = [] :=
  foldl_enlist_of_ne hne []

theorem enlisted_act (hs : c.Sound) (hr : c.Recalls h) (op : Op) {t' : Transaction}
    (hd' : (c.act op).describe x = some t') :
    (t'.stage = .ongoing → ∀ p, p ∈ t'.partitions ↔ p ∈ enlisted (h ++ c.deeds op) t'.identity) ∧
    (t'.stage ≠ .ongoing → enlisted (h ++ c.deeds op) t'.identity = []) := by
  by_cases hnew : ∃ ps, .enrolled t'.identity ps ∈ c.deeds op
  · -- the operation enrolls for `x`
    obtain ⟨ps, hm⟩ := hnew
    obtain ⟨now, y, rfl, hok⟩ := (enrolled_mem_deeds hs).mp hm
    rcases enroll_spec c now y t'.identity ps with ⟨t, hd, hid, -, hput, -⟩ | ⟨e, -, he, -⟩
    · have hdy : (c.act (.enroll now y t'.identity ps)).describe y = some (t.enroll now ps) :=
        (describe_put hput y).trans (if_pos (hs.named y t hd))
      have hxy : y = x := by
        refine (sound_act hs _).apart y x _ t' hdy hd' ?_
        rw [t.enroll_identity, hid]
      subst hxy
      obtain rfl := Option.some.inj (hdy.symm.trans hd')
      have hdeeds : c.deeds (.enroll now y (t.enroll now ps).identity ps) =
          [.enrolled (t.enroll now ps).identity ps] := by
        rw [deeds, enrollments, hok]
        rfl
      have henlisted : enlisted (h ++ c.deeds (.enroll now y (t.enroll now ps).identity ps))
          (t.enroll now ps).identity = enlisted h t.identity ++ ps := by
        rw [enlisted_append, hdeeds, List.foldl_cons, List.foldl_nil, Deed.enlist, if_pos rfl, hid]
      rw [henlisted]
      refine ⟨fun _ p => ?_, fun hno => absurd (t.enroll_stage now ps) hno⟩
      rw [t.mem_enroll_partitions, List.mem_append]
      by_cases hs' : t.stage = .ongoing
      · rw [hr.ongoing y t hd hs' p]
        simp [hs', or_comm]
      · rw [hr.idle y t hd hs']
        simp [hs']
    · rw [hok] at he
      cases he
  have hnew' : ∀ ps, .enrolled t'.identity ps ∉ c.deeds op := fun ps hm => hnew ⟨ps, hm⟩
  have hturn := turn hs.named op x
  rw [hd'] at hturn
  generalize hd : c.describe x = t? at hturn
  cases hturn with
  | same =>
    rw [enlisted_keep (ended_not_mem_deeds hs hd rfl fun ⟨u, hu, hw⟩ =>
      ⟨t', hd', Option.some.inj (hd.symm.trans hu) ▸ hw⟩) hnew']
    exact ⟨hr.ongoing x t' hd, hr.idle x t' hd⟩
  | fresh n timeout hlo _ =>
    rw [enlisted_of_ne (ne_of_next_le hs hr hlo)]
    exact ⟨fun hs' => absurd hs' (by simp [Transaction.fresh]), fun _ => rfl⟩
  | enroll t now ps hop =>
    -- the request was accepted
    refine absurd ((enrolled_mem_deeds hs).mpr ⟨now, x, ?_, ?_⟩) (hnew' ps)
    · rwa [t.enroll_identity]
    · rw [t.enroll_identity, enroll, authorize_eq_ok_iff.mpr ⟨hd, rfl⟩]
  | complete t o hop hongoing =>
    have hw : c.UnderWay x t.identity := ⟨t, hd, hongoing, rfl⟩
    have hno : ¬ (c.act op).UnderWay x t.identity := by simp [underWay_iff hd']
    rw [t.complete_identity] at hnew' ⊢
    rw [enlisted_append, foldl_enlist_of_ended ((ended_mem_deeds hs).mpr ⟨rfl, x, hw, hno⟩) hnew']
    exact ⟨fun hs' => absurd hs' (by simp), fun _ => rfl⟩
  | supersede t n timeout _ hlo _ =>
    have hid : (t.succeed n).identity = t.identity.following n := t.succeed_identity n
    show ((t.succeed n).stage = .ongoing → _) ∧
      ((t.succeed n).stage ≠ .ongoing → enlisted _ (t.succeed n).identity = [])
    rw [hid, enlisted_of_ne (ne_following hs hr hd hlo)]
    exact ⟨fun hs' => absurd hs' (by simp), fun _ => rfl⟩

theorem recalls_act (hs : c.Sound) (hr : c.Recalls h) (op : Op) :
    (c.act op).Recalls (h ++ c.deeds op) where
  given := fun d hd => by
    obtain ⟨y, hy⟩ := given_act hs hr op d hd
    exact ⟨y, had_act hs hy op⟩
  outcomes := fun _ _ hd => outcomes_act hs hr op hd
  ongoing := fun _ _ hd => (enlisted_act hs hr op hd).1
  idle := fun _ _ hd => (enlisted_act hs hr op hd).2

theorem recalls_run (ops : List Op) {c : Coordinator} {h : List Deed} (hs : c.Sound)
    (hr : c.Recalls h) : (c.run ops).Recalls (h ++ c.history ops) := by
  induction ops generalizing c h with
  | nil => rwa [history, List.append_nil]
  | cons op ops ih =>
    rw [history, ← List.append_assoc]
    exact ih (sound_act hs op) (recalls_act hs hr op)

/-! ### The verdict -/

/-- A request about an epoch of the producer that is not under way. -/
structure Settled (c : Coordinator) (x : String) (t : Transaction) (e : Int) : Prop where
  current : c.describe x = some t
  le : e ≤ t.identity.epoch
  idle : e = t.identity.epoch → t.stage ≠ .ongoing

/-- **One rule for the epochs that are over and the current one.** The answer
follows from the outcome that the entry has for the epoch. -/
theorem finish_settled (hs : c.Sound) {t : Transaction} {e : Int} (hc : c.Settled x t e)
    (o : Outcome) : c.finish x ⟨t.identity.producer, e⟩ o =
      match t.outcomes.get? e with
      | none => (c, .ok none)
      | some became =>
        if became = o then (c, .ok none)
        else if e < t.identity.epoch then c.refuse (.fenced x e t.identity.epoch)
        else (c, .error (.invalidState ("cannot " ++ o.text ++ " transaction in state "
          ++ t.stage.text))) := by
  have hname := hs.named x t hc.current
  unfold finish
  simp only [hc.current, true_and]
  by_cases hlt : e < t.identity.epoch
  · rw [if_pos hlt, finishStale, hname]
    cases t.outcomes.get? e with
    | none => rfl
    | some became => simp only [if_pos hlt]
  · have he : e = t.identity.epoch := by
      have := hc.le
      omega
    have hid : (⟨t.identity.producer, e⟩ : Identity) = t.identity := by rw [he]
    have hsound := hs.entries x t hc.current
    rw [if_neg hlt, Transaction.validate_ok_iff.mpr hid, he]
    cases hstage : t.stage with
    | ongoing => exact absurd hstage (hc.idle he)
    | empty => rw [hsound.empty hstage]
    | completed became =>
      rw [hsound.completed became hstage]
      simp only [if_neg (Int.lt_irrefl _)]

/-- How a coordinator answers end requests, given the history so far. -/
structure Judges (c : Coordinator) (h : List Deed) : Prop where
  /-- There is nothing to do exactly when nothing has ended under the identity, or
  what ended last ended like this. -/
  agrees : ∀ x t e o, c.Settled x t e → ((c.finish x ⟨t.identity.producer, e⟩ o).2 = .ok none ↔
    last h ⟨t.identity.producer, e⟩ = none ∨ last h ⟨t.identity.producer, e⟩ = some o)
  /-- Then nothing changes. -/
  inert : ∀ x t e o, c.Settled x t e → (c.finish x ⟨t.identity.producer, e⟩ o).2 = .ok none →
    (c.finish x ⟨t.identity.producer, e⟩ o).1 = c
  /-- Any other request is fenced when the epoch is over. -/
  fenced : ∀ x t e o, c.Settled x t e → (c.finish x ⟨t.identity.producer, e⟩ o).2 ≠ .ok none →
    e < t.identity.epoch → c.finish x ⟨t.identity.producer, e⟩ o =
      ({ c with tally := { c.tally with fenced := c.tally.fenced + 1 } },
        .error (.fenced x e t.identity.epoch))
  /-- It is out of place when the epoch is the current one. -/
  misplaced : ∀ x t e o, c.Settled x t e → (c.finish x ⟨t.identity.producer, e⟩ o).2 ≠ .ok none →
    e = t.identity.epoch → c.finish x ⟨t.identity.producer, e⟩ o =
      (c, .error (.invalidState ("cannot " ++ o.text ++ " transaction in state " ++ t.stage.text)))
  /-- What is under way is completed, and no other entry is touched. -/
  completes : ∀ x t o, c.describe x = some t → t.stage = .ongoing →
    c.finish x t.identity o = ({ c.keep (t.complete o).1 with tally := c.tally.ended o },
      .ok (some ⟨x, t.identity.producer, o, t.partitions⟩)) ∧
    (c.finish x t.identity o).1.describe x = some (t.complete o).1 ∧
    ∀ y, y ≠ x → (c.finish x t.identity o).1.describe y = c.describe y
  /-- Its partitions are those that were enrolled in it, each once. -/
  enlists : ∀ x t, c.describe x = some t → t.stage = .ongoing →
    t.partitions.Nodup ∧ ∀ p, p ∈ t.partitions ↔ p ∈ enlisted h t.identity

theorem Recalls.judges (hs : c.Sound) (hl : c.Listed) (hr : c.Recalls h) : c.Judges h where
  agrees := fun x t e o hc => by
    rw [finish_settled hs hc, hr.outcomes x t hc.current]
    cases last h ⟨t.identity.producer, e⟩ with
    | none => simp
    | some became =>
      by_cases hb : became = o
      · simp [hb]
      · by_cases he : e < t.identity.epoch <;> simp [hb, he]
  inert := fun x t e o hc => by
    rw [finish_settled hs hc]
    cases t.outcomes.get? e with
    | none => exact fun _ => rfl
    | some became =>
      by_cases hb : became = o
      · simp [hb]
      · by_cases he : e < t.identity.epoch <;> simp [hb, he]
  fenced := fun x t e o hc hne he => by
    rw [finish_settled hs hc] at hne ⊢
    cases hget : t.outcomes.get? e with
    | none => simp [hget] at hne
    | some became =>
      have hb : became ≠ o := fun hb => by simp [hget, hb] at hne
      simp only [if_neg hb, if_pos he]
      rfl
  misplaced := fun x t e o hc hne he => by
    rw [finish_settled hs hc] at hne ⊢
    cases hget : t.outcomes.get? e with
    | none => simp [hget] at hne
    | some became =>
      have hb : became ≠ o := fun hb => by simp [hget, hb] at hne
      simp only [if_neg hb, if_neg (Int.not_lt.mpr (Int.le_of_eq he.symm))]
  completes := fun x t o hd hongoing => by
    have hname := hs.named x t hd
    have hput := (finish_of_ongoing hd hongoing o).2
    refine ⟨?_, (describe_put hput x).trans (if_pos hname), fun y hy => ?_⟩
    · unfold finish
      simp only [hd, Transaction.validate_ok_iff.mpr rfl, hongoing]
      rw [if_neg fun h => Int.lt_irrefl _ h.2]
      simp [Transaction.complete, hname]
    · exact (describe_put hput y).trans (if_neg fun he => hy (he.symm.trans hname))
  enlists := fun x t hd hongoing => ⟨(hl x t hd).nodup, hr.ongoing x t hd hongoing⟩

/-- **The answer to an end request is a function of history**, after every
run. -/
theorem judges_run (maxTimeout : Span) (ops : List Op) :
    ((start maxTimeout).run ops).Judges ((start maxTimeout).history ops) := by
  have hr := recalls_run ops (sound_start maxTimeout) (recalls_start maxTimeout)
  rw [List.nil_append] at hr
  exact hr.judges (sound_run (sound_start maxTimeout) ops)
    (listed_run (sound_start maxTimeout) (listed_start maxTimeout) ops)

end Coordinator
end FencedLog
