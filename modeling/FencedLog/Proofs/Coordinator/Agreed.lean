/-
# An end that was agreed to once

An end request that was answered positively may be made again, however long
afterwards: whatever became of the transactional id in between, as long as
nobody has enrolled under the identity, there is nothing to do and the answer
is positive (`Repeats.noop`). What carries it through a run is `Agreed`: the
identity has nothing under way, and if its epoch has an outcome it is this one.

There is one end to it. The outcomes are kept by epoch, and when the epochs of a
producer are used up the transactional id goes on under another producer and
they are forgotten. From then on the request is refused, because its producer is
unknown (`Repeats.unmapped`, `finish_forgotten`).

Key definitions: `Coordinator.Agreed`, `Coordinator.Unreopened`,
`Coordinator.Exhausts`, `Coordinator.Repeats`.
Key theorems: `Coordinator.agreed_act`, `Coordinator.finish_of_agreed`,
`Coordinator.producer_run`, `Coordinator.finish_repeats`.
-/
import FencedLog.Proofs.Coordinator.Repeat

namespace FencedLog
namespace Coordinator

variable {c : Coordinator} {x : String} {id : Identity} {o : Outcome}

/-! ### What the coordinator has agreed to -/

/-- An end of this identity has been agreed to, and nobody has enrolled under it
since. -/
def Agreed (c : Coordinator) (x : String) (id : Identity) (o : Outcome) : Prop :=
  ∃ t, c.describe x = some t ∧ (t.identity = id ∨ id < t.identity) ∧
    (t.identity = id → t.stage = .empty ∨ t.stage = .completed o) ∧
    (t.identity.producer = id.producer → ∀ o', t.outcomes.get? id.epoch = some o' → o' = o)

/-- What the coordinator remembers it has agreed to. -/
theorem Remembers.agreed (h : c.Remembers x id o) : c.Agreed x id o := by
  obtain ⟨t, hd, hle, hstage, hout⟩ := h
  refine ⟨t, hd, hle, fun hid => Or.inr (hstage hid), fun hp o' ho' => ?_⟩
  rw [hout hp] at ho'
  exact (Option.some.inj ho').symm

/-- What a positive answer says: the identity is the current one, with its
transaction under way, not begun or ended like this, or it is an earlier one of
the same producer, and its epoch has no other outcome. -/
theorem finish_ok {r : Option Closing} (h : (c.finish x id o).2 = .ok r) :
    ∃ t, c.describe x = some t ∧
      ((id.producer = t.identity.producer ∧ id.epoch < t.identity.epoch ∧
          ∀ o', t.outcomes.get? id.epoch = some o' → o' = o) ∨
        (id = t.identity ∧ (t.stage = .ongoing ∨ t.stage = .empty ∨ t.stage = .completed o))) := by
  unfold finish at h
  cases hd : c.describe x with
  | none => simp [hd] at h
  | some t =>
    refine ⟨t, rfl, ?_⟩
    simp only [hd] at h
    split at h
    · rename_i hstale
      refine Or.inl ⟨hstale.1, hstale.2, fun o' ho' => ?_⟩
      unfold finishStale at h
      simp only [ho'] at h
      by_contra hne
      rw [if_neg hne, refuse_answer] at h
      cases h
    · split at h
      · rw [refuse_answer] at h
        cases h
      · rename_i hv
        refine Or.inr ⟨Transaction.validate_ok_iff.mp hv, ?_⟩
        split at h
        · exact Or.inl ‹_›
        · exact Or.inr (Or.inl ‹_›)
        · split at h
          · rename_i hstage he
            exact Or.inr (Or.inr (he ▸ hstage))
          · cases h

/-- A positive answer is an agreement. -/
theorem agreed_finish (hs : c.Sound) {r : Option Closing} (h : (c.finish x id o).2 = .ok r) :
    (c.act (.finish x id o)).Agreed x id o := by
  rcases finish_spec c x id o with ⟨t, hd, rfl, hongoing, -⟩ | ⟨hf, hnone⟩
  · have hw : c.UnderWay x t.identity := ⟨t, hd, hongoing, rfl⟩
    exact (remembers_ended hs hw (finish_of_underWay hs hw o)).agreed
  -- nothing was done, so the entry shows why the answer was positive
  obtain ⟨t, hd, hwhy⟩ := finish_ok h
  have ht := hs.entries x t hd
  refine ⟨t, (hf.describe x).trans hd, ?_⟩
  rcases hwhy with ⟨hp, hlt, hout⟩ | ⟨rfl, hstage⟩
  · have hlt : id < t.identity := Identity.lt_iff.mpr (Or.inr ⟨hp, hlt⟩)
    exact ⟨Or.inr hlt, fun hid => absurd hid.symm (Identity.ne_of_lt hlt), fun _ => hout⟩
  · have hstage := hstage.resolve_left fun hongoing =>
      hnone _ (finish_of_ongoing hd hongoing o).1
    refine ⟨Or.inl rfl, fun _ => hstage, fun _ o' ho' => ?_⟩
    rcases hstage with hstage | hstage
    · rw [ht.empty hstage] at ho'
      cases ho'
    · rw [ht.completed o hstage] at ho'
      exact (Option.some.inj ho').symm

/-- Nobody enrolls under the identity: every request to do so is refused. -/
def Unreopened (c : Coordinator) (x : String) (id : Identity) : List Op → Prop
  | [] => True
  | op :: ops => (∀ now ps, op = .enroll now x id ps → (c.enroll now x id ps).2 ≠ .ok ()) ∧
      (c.act op).Unreopened x id ops

/-- An agreement stands until somebody enrolls under the identity. -/
theorem agreed_act (hs : c.Sound) (h : c.Agreed x id o) {op : Op}
    (hop : ∀ now ps, op = .enroll now x id ps → (c.enroll now x id ps).2 ≠ .ok ()) :
    (c.act op).Agreed x id o := by
  obtain ⟨t, hd, hle, hstage, hout⟩ := h
  have ht := turn hs.named op x
  rw [hd] at ht
  generalize hd' : (c.act op).describe x = t'? at ht
  cases ht with
  | same => exact ⟨t, hd', hle, hstage, hout⟩
  | enroll _ now ps he =>
    have hne : t.identity ≠ id := by
      rintro rfl
      refine hop now ps he ?_
      unfold Coordinator.enroll
      rw [authorize_eq_ok_iff.mpr ⟨hd, rfl⟩]
    refine ⟨_, hd', ?_, fun hid => absurd ((t.enroll_identity now ps).symm.trans hid) hne, ?_⟩
    · rwa [Transaction.enroll_identity]
    · rwa [Transaction.enroll_identity, Transaction.enroll_outcomes]
  | complete _ o' _ hongoing =>
    have hne : t.identity ≠ id := by
      intro hid
      rcases hstage hid with hstage | hstage
      · rw [hstage] at hongoing
        cases hongoing
      · rw [hstage] at hongoing
        cases hongoing
    have hlt := hle.resolve_left hne
    refine ⟨_, hd', hle, fun hid => absurd hid hne, fun hp => ?_⟩
    have hget : (t.complete o').1.outcomes.get? id.epoch = _ :=
      Table.get?_put t.outcomes t.identity.epoch id.epoch o'
    rw [hget, if_neg (epoch_ne hlt hp)]
    exact hout hp
  | supersede _ n timeout _ hlo _ =>
    have hn : t.identity.producer < n := Int.lt_of_lt_of_le (hs.below x t hd) hlo
    have hlt := succeed_new hn hle
    refine ⟨_, hd', Or.inr hlt, fun hid => absurd hid.symm (Identity.ne_of_lt hlt), fun hp => ?_⟩
    obtain ⟨hp', hget⟩ := succeed_outcome hn hle hp
    show ∀ o', (t.succeed n).outcomes.get? id.epoch = some o' → o' = o
    rw [hget, if_neg fun hc => ?_]
    · exact hout hp'
    · rcases hstage hc.2 with hstage | hstage
      · rw [hstage] at hc
        exact nomatch hc.1
      · rw [hstage] at hc
        exact nomatch hc.1

theorem agreed_run (ops : List Op) {c : Coordinator} (hs : c.Sound) (h : c.Agreed x id o)
    (hops : c.Unreopened x id ops) : (c.run ops).Agreed x id o := by
  induction ops generalizing c with
  | nil => exact h
  | cons op ops ih => exact ih (sound_act hs op) (agreed_act hs h hops.1) hops.2

/-- While the transactional id keeps its producer, a request for the same end
has nothing to do. -/
theorem finish_of_agreed (h : c.Agreed x id o) {t : Transaction} (hd : c.describe x = some t)
    (hp : t.identity.producer = id.producer) : c.finish x id o = (c, .ok none) := by
  obtain ⟨t', hd', hle, hstage, hout⟩ := h
  rw [hd] at hd'
  obtain rfl := Option.some.inj hd'
  unfold finish
  simp only [hd]
  rcases hle with rfl | hlt
  · -- the identity is the current one
    rw [if_neg (by omega), Transaction.validate_ok_iff.mpr rfl]
    rcases hstage rfl with hstage | hstage
    · simp [hstage]
    · simp [hstage]
  · rw [Identity.lt_iff] at hlt
    rw [if_pos (by omega), finishStale]
    cases ho' : t.outcomes.get? id.epoch with
    | none => rfl
    | some o' => exact if_pos (hout hp o' ho')

/-- Under a producer that is not the transactional id's an end is refused. -/
theorem finish_of_unmapped (hs : c.Sound) {t : Transaction} (hd : c.describe x = some t)
    (hp : t.identity.producer ≠ id.producer) :
    c.finish x id o = (c, .error (.unmappedProducer x id.producer)) := by
  unfold finish
  simp only [hd]
  rw [if_neg fun h => hp h.1.symm]
  simp [Transaction.validate, hp.symm, hs.named x t hd, refuse]

/-! ### The producer of a transactional id -/

/-- The operation takes the transactional id beyond the last epoch of the
producer. -/
def Outgrows (c : Coordinator) (x : String) (p : Int) (op : Op) : Prop :=
  (∃ t, c.describe x = some t ∧ t.identity = ⟨p, lastEpoch⟩) ∧
    ∃ u, (c.act op).describe x = some u ∧ u.identity ≠ ⟨p, lastEpoch⟩

/-- One of the operations takes the transactional id beyond the last epoch of
the producer. -/
def Exhausts (c : Coordinator) (x : String) (p : Int) : List Op → Prop
  | [] => False
  | op :: ops => c.Outgrows x p op ∨ (c.act op).Exhausts x p ops

/-- The transactional id has this producer. -/
def Mapped (c : Coordinator) (x : String) (p : Int) : Prop :=
  ∃ t, c.describe x = some t ∧ t.identity.producer = p

/-- The transactional id has left this producer for a later one. -/
def Beyond (c : Coordinator) (x : String) (p : Int) : Prop :=
  ∃ t, c.describe x = some t ∧ p < t.identity.producer

/-- A transactional id keeps its producer, unless the last epoch is superseded. -/
theorem producer_act (hs : c.Sound) {p : Int} (h : c.Mapped x p) (op : Op) :
    (¬ c.Outgrows x p op ∧ (c.act op).Mapped x p) ∨ (c.Outgrows x p op ∧ (c.act op).Beyond x p) := by
  obtain ⟨t, hd, rfl⟩ := h
  have ht := turn hs.named op x
  rw [hd] at ht
  generalize hd' : (c.act op).describe x = t'? at ht
  -- an operation that leaves the identity alone does not outgrow it
  have kept : ∀ u, t'? = some u → u.identity = t.identity →
      ¬ c.Outgrows x t.identity.producer op ∧ (c.act op).Mapped x t.identity.producer := by
    rintro u rfl hid
    refine ⟨?_, u, hd', by rw [hid]⟩
    rintro ⟨⟨t', ht', hlast⟩, u', hu', hne⟩
    rw [hd] at ht'
    rw [hd'] at hu'
    obtain rfl := Option.some.inj ht'
    obtain rfl := Option.some.inj hu'
    exact hne (hid.trans hlast)
  cases ht with
  | same => exact Or.inl (kept t rfl rfl)
  | enroll _ now ps _ => exact Or.inl (kept _ rfl (t.enroll_identity now ps))
  | complete _ o _ _ => exact Or.inl (kept _ rfl rfl)
  | supersede _ n timeout _ hlo _ =>
    have hn : t.identity.producer < n := Int.lt_of_lt_of_le (hs.below x t hd) hlo
    have hid : ({ t.succeed n with timeout := timeout } : Transaction).identity =
      t.identity.following n := t.succeed_identity n
    by_cases hl : t.identity.epoch = lastEpoch
    · have hid' := hid.trans (if_pos hl)
      refine Or.inr ⟨⟨⟨t, hd, by rw [← hl]⟩, _, hd', ?_⟩, _, hd', ?_⟩
      · rw [hid']
        intro he
        have := congrArg Identity.producer he
        simp only at this
        omega
      · rw [hid']
        exact hn
    · have hid' := hid.trans (if_neg hl)
      refine Or.inl ⟨?_, _, hd', by rw [hid']⟩
      rintro ⟨⟨t', ht', hlast⟩, -⟩
      rw [hd] at ht'
      obtain rfl := Option.some.inj ht'
      exact hl (congrArg Identity.epoch hlast)

/-- A producer that was left is not taken up again. -/
theorem beyond_act (hs : c.Sound) {p : Int} (h : c.Beyond x p) (op : Op) : (c.act op).Beyond x p := by
  obtain ⟨t, hd, hp⟩ := h
  obtain ⟨u, hu, hi⟩ := Turn.identity hs hd (hd ▸ turn hs.named op x)
  refine ⟨u, hu, ?_⟩
  rcases hi with hi | hi
  · rwa [hi]
  · rw [Identity.lt_iff] at hi
    omega

theorem beyond_run (ops : List Op) {c : Coordinator} (hs : c.Sound) {p : Int} (h : c.Beyond x p) :
    (c.run ops).Beyond x p := by
  induction ops generalizing c with
  | nil => exact h
  | cons op ops ih => exact ih (sound_act hs op) (beyond_act hs h op)

/-- After a run the transactional id has the producer that it had, or a later
one if the epochs were used up on the way. -/
theorem producer_run (ops : List Op) {c : Coordinator} (hs : c.Sound) {p : Int}
    (h : c.Mapped x p) : (¬ c.Exhausts x p ops ∧ (c.run ops).Mapped x p) ∨
      (c.Exhausts x p ops ∧ (c.run ops).Beyond x p) := by
  induction ops generalizing c with
  | nil => exact Or.inl ⟨False.elim, h⟩
  | cons op ops ih =>
    rcases producer_act hs h op with ⟨hno, h'⟩ | ⟨hout, h'⟩
    · rcases ih (sound_act hs op) h' with ⟨hno', h''⟩ | ⟨hex, h''⟩
      · exact Or.inl ⟨not_or.mpr ⟨hno, hno'⟩, h''⟩
      · exact Or.inr ⟨Or.inr hex, h''⟩
    · exact Or.inr ⟨Or.inl hout, beyond_run ops (sound_act hs op) h'⟩

/-- Whoever is answered positively has the transactional id's producer. -/
theorem mapped_finish (hs : c.Sound) {r : Option Closing} (h : (c.finish x id o).2 = .ok r) :
    (c.act (.finish x id o)).Mapped x id.producer := by
  rcases finish_spec c x id o with ⟨t, hd, rfl, -, -, hput, -⟩ | ⟨hf, -⟩
  · exact ⟨_, (describe_put hput x).trans (if_pos (hs.named x t hd)), rfl⟩
  · obtain ⟨t, hd, hwhy⟩ := finish_ok h
    refine ⟨t, (hf.describe x).trans hd, ?_⟩
    rcases hwhy with ⟨hp, -⟩ | ⟨rfl, -⟩
    · exact hp.symm
    · rfl

/-! ### The request is made again -/

/-- What becomes of an end request that was answered positively, and is made
again after the operations. -/
structure Repeats (c : Coordinator) (x : String) (id : Identity) (o : Outcome) (ops : List Op) :
    Prop where
  /-- While the transactional id keeps its producer there is nothing to do. -/
  noop : ¬ c.Exhausts x id.producer ops → (c.run ops).finish x id o = (c.run ops, .ok none)
  /-- When the epochs have been used up, the producer is unknown. -/
  unmapped : c.Exhausts x id.producer ops →
    (c.run ops).finish x id o = (c.run ops, .error (.unmappedProducer x id.producer))

/-- **An end that was agreed to once may be asked for again**, after any
operations that do not enroll under the identity, until the epochs of its
producer are used up. Neither answer changes anything. -/
theorem finish_repeats (maxTimeout : Span) (before after : List Op) {r : Option Closing}
    (h : (((start maxTimeout).run before).finish x id o).2 = .ok r)
    (hafter : (((start maxTimeout).run before).act (.finish x id o)).Unreopened x id after) :
    (((start maxTimeout).run before).act (.finish x id o)).Repeats x id o after := by
  have hs := sound_run (sound_start maxTimeout) before
  have hs' := sound_act hs (.finish x id o)
  have hagreed := agreed_run after hs' (agreed_finish hs h) hafter
  have hmapped := mapped_finish hs h
  constructor
  · intro hno
    obtain ⟨t, hd, hp⟩ := ((producer_run after hs' hmapped).resolve_right fun hex => hno hex.1).2
    exact finish_of_agreed hagreed hd hp
  · intro hex
    obtain ⟨t, hd, hp⟩ := ((producer_run after hs' hmapped).resolve_left fun hno => hno.1 hex).2
    exact finish_of_unmapped (sound_run hs' after) hd (by omega)

/-- A transactional id with a transaction that has one partition. -/
def opened : List Op :=
  [.init "tx" (.ofSecs 10), .enroll .zero "tx" ⟨1000, 0⟩ [⟨"T", 0⟩]]

/-- It has been committed. -/
def closed : Coordinator :=
  ((start (.ofSecs 60)).run opened).act (.finish "tx" ⟨1000, 0⟩ .commit)

/-- What was committed is committed again after the identity was superseded,
its owner tried to go on, and the next one aborted a transaction of its own. -/
theorem finish_repeats_superseded :
    (((start (.ofSecs 60)).run opened).finish "tx" ⟨1000, 0⟩ .commit).2 =
      .ok (some ⟨"tx", 1000, .commit, [⟨"T", 0⟩]⟩) ∧
    closed.Repeats "tx" ⟨1000, 0⟩ .commit
      [.init "tx" (.ofSecs 10), .enroll .zero "tx" ⟨1000, 0⟩ [⟨"T", 0⟩],
        .enroll .zero "tx" ⟨1000, 1⟩ [⟨"T", 0⟩], .finish "tx" ⟨1000, 1⟩ .abort] := by
  have hfirst : (((start (.ofSecs 60)).run opened).finish "tx" ⟨1000, 0⟩ .commit).2 =
      .ok (some ⟨"tx", 1000, .commit, [⟨"T", 0⟩]⟩) := rfl
  have hrefusals : closed.Unreopened "tx" ⟨1000, 0⟩
      [.init "tx" (.ofSecs 10), .enroll .zero "tx" ⟨1000, 0⟩ [⟨"T", 0⟩],
        .enroll .zero "tx" ⟨1000, 1⟩ [⟨"T", 0⟩], .finish "tx" ⟨1000, 1⟩ .abort] := by
    refine ⟨by simp, ?_, by simp, by simp, trivial⟩
    intro now ps he hok
    cases he
    have hrefused : ((closed.act (.init "tx" (.ofSecs 10))).enroll .zero "tx" ⟨1000, 0⟩
        [⟨"T", 0⟩]).2 = .error (.fenced "tx" 0 1) := rfl
    rw [hrefused] at hok
    cases hok
  exact ⟨hfirst, finish_repeats (.ofSecs 60) opened _ hfirst hrefusals⟩

/-! ### The producer is used up -/

theorem unreopened_of_forall : ∀ {ops : List Op} {c : Coordinator},
    (∀ op ∈ ops, ∀ now ps, op ≠ .enroll now x id ps) → c.Unreopened x id ops
  | [], _, _ => trivial
  | op :: _, _, h => ⟨fun now ps he => absurd he (h op List.mem_cons_self now ps),
      unreopened_of_forall fun op hop => h op (List.mem_cons_of_mem _ hop)⟩

/-- A known transactional id is given its next identity. -/
theorem identity_init (hs : c.Sound) {t : Transaction} (hd : c.describe x = some t)
    (timeout : Span) : ∃ u, (c.act (.init x timeout)).describe x = some u ∧
      u.identity = t.identity.following c.next := by
  rcases init_spec c x timeout with ⟨hnone, -⟩ | ⟨t', hd', hput, -⟩
  · rw [hd] at hnone
    cases hnone
  · obtain rfl := Option.some.inj (hd.symm.trans hd')
    exact ⟨_, (describe_put hput x).trans (if_pos (hs.named x t hd)), t.succeed_identity c.next⟩

/-- `n` requests for an identity take a transactional id `n` epochs further. -/
theorem identity_inits (timeout : Span) : ∀ (n : Nat) {c : Coordinator} {t : Transaction},
    c.Sound → c.describe x = some t → t.identity.epoch + n ≤ lastEpoch →
      ∃ u, (c.run (List.replicate n (.init x timeout))).describe x = some u ∧
        u.identity = ⟨t.identity.producer, t.identity.epoch + n⟩
  | 0, _, t, _, hd, _ => ⟨t, hd, by simp⟩
  | n + 1, c, t, hs, hd, hn => by
    obtain ⟨u, hu, hid⟩ := identity_init hs hd timeout
    rw [Identity.following, if_neg (by omega)] at hid
    obtain ⟨v, hv, hid'⟩ := identity_inits timeout n (sound_act hs _) hu (by
      rw [hid]
      show t.identity.epoch + 1 + n ≤ lastEpoch
      omega)
    refine ⟨v, hv, hid'.trans ?_⟩
    rw [hid]
    show (⟨_, t.identity.epoch + 1 + n⟩ : Identity) = ⟨_, t.identity.epoch + (n + 1 : Nat)⟩
    congr 1
    omega

/-- After all epochs of its producer a transactional id has another producer. -/
theorem beyond_inits (hs : c.Sound) {t : Transaction} (hd : c.describe x = some t) {p : Int}
    (hp : t.identity.producer = p) {n : Nat} (hn : t.identity.epoch + n = lastEpoch)
    (timeout : Span) : (c.run (List.replicate (n + 1) (.init x timeout))).Beyond x p := by
  rw [List.replicate_succ', run_append]
  have hs' := sound_run hs (List.replicate n (.init x timeout))
  obtain ⟨u, hu, hid⟩ := identity_inits timeout n hs hd (Int.le_of_eq hn)
  obtain ⟨v, hv, hid'⟩ := identity_init hs' hu timeout
  have hb := hs'.below x u hu
  refine ⟨v, hv, ?_⟩
  rw [hid', Identity.following, if_pos (by rw [hid]; exact hn), ← hp]
  rw [hid] at hb
  exact hb

/-- A transaction that was committed cannot be committed again once its
transactional id has been given all further identities of the producer, and one
more. -/
theorem finish_forgotten :
    (((start (.ofSecs 60)).run opened).finish "tx" ⟨1000, 0⟩ .commit).2 =
      .ok (some ⟨"tx", 1000, .commit, [⟨"T", 0⟩]⟩) ∧
    closed.Unreopened "tx" ⟨1000, 0⟩ (List.replicate 32768 (.init "tx" (.ofSecs 10))) ∧
    ((closed.run (List.replicate 32768 (.init "tx" (.ofSecs 10)))).finish "tx" ⟨1000, 0⟩ .commit).2 =
      .error (.unmappedProducer "tx" 1000) := by
  have hs : closed.Sound := sound_act (sound_run (sound_start _) opened) _
  obtain ⟨t, hd, hid⟩ : ∃ t, closed.describe "tx" = some t ∧ t.identity = ⟨1000, 0⟩ := ⟨_, rfl, rfl⟩
  have hbeyond := beyond_inits (p := 1000) (n := 32767) hs hd (by rw [hid]) (by rw [hid]; rfl)
    (.ofSecs 10)
  refine ⟨rfl, unreopened_of_forall fun op hop now ps => ?_, ?_⟩
  · rw [List.eq_of_mem_replicate hop]
    simp
  · obtain ⟨u, hu, hp⟩ := hbeyond
    rw [finish_of_unmapped (sound_run hs _) hu (Int.ne_of_gt hp)]

end Coordinator
end FencedLog
