/-
# An identity that has been superseded stays so

The identities of a transactional id are handed out in ascending order, by
producer and then by epoch, and no identity is handed out twice
(`ascending_issued`). What carries this through a run is `Had`: an identity
that a transactional id once had is at most its current one, and no other
transactional id has come to its producer.

Below the current identity every request is refused or answered without an
effect (`fences_of_passed`).

Key definitions: `Identity.Lt`, `Coordinator.issued`, `Coordinator.Had`,
`Coordinator.Passed`, `Coordinator.Fences`.
Key theorems: `Coordinator.had_act`, `Coordinator.ascending_issued`,
`Coordinator.passed_run`, `Coordinator.fences_of_passed`.
-/
import FencedLog.Proofs.Coordinator.Sound

namespace FencedLog

/-! ### The order of identities -/

namespace Identity

/-- Earlier: by producer, then by epoch. -/
def Lt (a b : Identity) : Prop :=
  a.producer < b.producer ∨ (a.producer = b.producer ∧ a.epoch < b.epoch)

instance : LT Identity := ⟨Lt⟩

theorem lt_iff {a b : Identity} :
    a < b ↔ a.producer < b.producer ∨ (a.producer = b.producer ∧ a.epoch < b.epoch) := Iff.rfl

theorem lt_trans {a b c : Identity} (h : a < b) (h' : b < c) : a < c := by
  rw [lt_iff] at *
  omega

theorem ne_of_lt {a b : Identity} (h : a < b) : a ≠ b := by
  rintro rfl
  rw [lt_iff] at h
  omega

theorem lt_following {id : Identity} {next : Int} (h : id.producer < next) :
    id < id.following next := by
  rw [lt_iff, following]
  split
  · exact Or.inl h
  · exact Or.inr ⟨rfl, by show id.epoch < id.epoch + 1; omega⟩

end Identity

namespace Coordinator

/-! ### The identities of a run -/

/-- The identity that an operation answers with, and for whom. -/
def issue? (c : Coordinator) : Op → Option (String × Identity)
  | .init x timeout => some (x, (c.init x timeout).2.1)
  | .enroll .. | .permit .. | .finish .. | .expire .. => none

/-- The identities that a run answers with, in order. -/
def issued (c : Coordinator) : List Op → List (String × Identity)
  | [] => []
  | op :: ops => (c.issue? op).toList ++ (c.act op).issued ops

/-- The transactional id has or had this identity. -/
structure Had (c : Coordinator) (x : String) (id : Identity) : Prop where
  /-- It has this identity, or a later one. -/
  reached : ∃ t, c.describe x = some t ∧ (id = t.identity ∨ id < t.identity)
  /-- The producer belongs to no other transactional id. -/
  alone : ∀ y u, c.describe y = some u → u.identity.producer = id.producer → y = x

variable {c : Coordinator} {x : String} {id : Identity}

theorem Sound.had (h : c.Sound) {t : Transaction} (hd : c.describe x = some t) :
    c.Had x t.identity :=
  ⟨⟨t, hd, Or.inl rfl⟩, fun y u hu he => h.apart y x u t hu hd he⟩

theorem Had.producer_lt (hs : c.Sound) (h : c.Had x id) : id.producer < c.next := by
  obtain ⟨t, hd, he⟩ := h.reached
  have hb := hs.below x t hd
  rcases he with rfl | hlt
  · exact hb
  · rw [Identity.lt_iff] at hlt
    omega

/-- An entry's turn never goes back to an earlier identity. -/
theorem Turn.identity (h : c.Sound) {op : Op} {t : Transaction} {t? : Option Transaction}
    (hd : c.describe x = some t) (ht : Turn op c.next (c.act op).next x (some t) t?) :
    ∃ u, t? = some u ∧ (u.identity = t.identity ∨ t.identity < u.identity) := by
  cases ht with
  | same => exact ⟨t, rfl, Or.inl rfl⟩
  | enroll _ now ps _ => exact ⟨_, rfl, Or.inl (t.enroll_identity now ps)⟩
  | complete _ o _ _ => exact ⟨_, rfl, Or.inl rfl⟩
  | supersede _ n timeout _ hlo _ =>
    refine ⟨_, rfl, Or.inr ?_⟩
    show t.identity < (t.succeed n).identity
    rw [Transaction.succeed_identity]
    exact Identity.lt_following (Int.lt_of_lt_of_le (h.below x t hd) hlo)

theorem had_act (hs : c.Sound) (h : c.Had x id) (op : Op) : (c.act op).Had x id where
  reached := by
    obtain ⟨t, hd, he⟩ := h.reached
    obtain ⟨u, hu, hi⟩ := Turn.identity hs hd (hd ▸ turn hs.named op x)
    refine ⟨u, hu, ?_⟩
    rcases hi with hi | hi
    · rwa [hi]
    · rcases he with rfl | he
      · exact Or.inr hi
      · exact Or.inr (Identity.lt_trans he hi)
  alone := fun y u hu he => by
    rcases (hu ▸ turn hs.named op y).producer with ⟨u₀, hu₀, hp⟩ | ⟨hlo, -⟩
    · exact h.alone y u₀ hu₀ (hp.symm.trans he)
    · have := h.producer_lt hs
      omega

/-- An answered identity is the current one afterwards, and new. -/
theorem issue?_spec (hs : c.Sound) {op : Op} (h : c.issue? op = some (x, id)) :
    (∃ t, (c.act op).describe x = some t ∧ t.identity = id) ∧
      ∀ t, c.describe x = some t → t.identity < id := by
  cases op with
  | init y timeout =>
    obtain ⟨rfl, rfl⟩ := Prod.mk.inj (Option.some.inj h)
    rcases init_spec c y timeout with ⟨hn, hput, -, ha⟩ | ⟨t, hd, hput, -, ha⟩
    · refine ⟨⟨_, (describe_put hput y).trans (if_pos rfl), ?_⟩, fun t hd => ?_⟩
      · rw [ha]
        rfl
      · rw [hn] at hd
        cases hd
    · refine ⟨⟨_, (describe_put hput y).trans (if_pos (hs.named y t hd)), ?_⟩, fun t' hd' => ?_⟩
      · rw [ha]
        exact t.succeed_identity c.next
      · rw [hd] at hd'
        rw [ha, ← Option.some.inj hd']
        exact Identity.lt_following (hs.below y t hd)
  | _ => cases h

/-- What is answered after `x` had `id` is new, and later if it is for `x`. -/
theorem issued_of_had {y : String} {id' : Identity} : ∀ (ops : List Op) {c : Coordinator},
    c.Sound → c.Had x id → (y, id') ∈ c.issued ops → (x = y → id < id') ∧ id ≠ id'
  | op :: ops, c, hs, h, hm => by
    rcases List.mem_append.mp hm with hm | hm
    · obtain ⟨⟨u, hu, rfl⟩, hlt⟩ := issue?_spec hs (Option.mem_toList.mp hm)
      have hle : x = y → id < u.identity := by
        rintro rfl
        obtain ⟨t, hd, he⟩ := h.reached
        rcases he with rfl | he
        · exact hlt t hd
        · exact Identity.lt_trans he (hlt t hd)
      refine ⟨hle, fun he => ?_⟩
      have hxy := (had_act hs h op).alone y u hu (by rw [he])
      exact Identity.ne_of_lt (hle hxy.symm) he
    · exact issued_of_had ops (sound_act hs op) (had_act hs h op) hm

/-- For one transactional id the answered identities ascend, and no identity is
answered twice. -/
theorem ascending_issued (ops : List Op) {c : Coordinator} (hs : c.Sound) :
    (c.issued ops).Pairwise fun a b => (a.1 = b.1 → a.2 < b.2) ∧ a.2 ≠ b.2 := by
  induction ops generalizing c with
  | nil => exact List.Pairwise.nil
  | cons op ops ih =>
    have htail := ih (sound_act hs op)
    rw [issued]
    cases hi : c.issue? op with
    | none => exact htail
    | some a =>
      obtain ⟨x, id⟩ := a
      obtain ⟨⟨t, hd, rfl⟩, -⟩ := issue?_spec hs hi
      refine List.pairwise_cons.mpr ⟨fun b hb => ?_, htail⟩
      exact issued_of_had ops (sound_act hs op) ((sound_act hs op).had hd) hb

/-! ### Requests under an earlier identity -/

/-- The transactional id has moved on from this identity. -/
def Passed (c : Coordinator) (x : String) (id : Identity) : Prop :=
  ∃ w, c.describe x = some w ∧ id < w.identity

/-- The refusal of an identity that another one, `current`, has superseded. -/
def refusal (x : String) (id current : Identity) : BrokerError :=
  if id.producer = current.producer then .fenced x id.epoch current.epoch
  else .unmappedProducer x id.producer

/-- A request of this transactional id under this identity. -/
def Op.Under (x : String) (id : Identity) : Op → Prop
  | .enroll _ y id' _ => y = x ∧ id' = id
  | .permit y id' _ => y = x ∧ id' = id
  | .finish y id' _ => y = x ∧ id' = id
  | .init .. | .expire .. => False

/-- What the coordinator does with requests under a superseded identity. -/
structure Fences (c : Coordinator) (x : String) (id : Identity) : Prop where
  /-- To enroll and to write are refused: by the newer epoch, or because the
  producer is no longer the transactional id's. -/
  refused : ∃ w, c.describe x = some w ∧ id < w.identity ∧
    (∀ now ps, (c.enroll now x id ps).2 = .error (refusal x id w.identity)) ∧
    ∀ p, (c.permit x id p).2 = .error (refusal x id w.identity)
  /-- No request has an effect, whatever its answer. -/
  inert : ∀ op, op.Under x id → OnlyFenced c (c.act op)

theorem authorize_of_passed (hs : c.Sound) {w : Transaction} (hd : c.describe x = some w)
    (hlt : id < w.identity) : c.authorize x id = .error (refusal x id w.identity) := by
  have hx := hs.named x w hd
  rw [Identity.lt_iff] at hlt
  unfold authorize refusal
  simp only [hd, Transaction.validate, hx]
  by_cases hp : id.producer = w.identity.producer
  · rw [if_neg (not_not.mpr hp), if_pos (by omega), if_pos hp]
    rfl
  · rw [if_pos hp, if_neg hp]
    rfl

theorem enroll_of_error {e : BrokerError} (h : c.authorize x id = .error e) (now : Span)
    (ps : List TopicPartition) :
    (c.enroll now x id ps).2 = .error e ∧ OnlyFenced c (c.enroll now x id ps).1 := by
  rcases enroll_spec c now x id ps with ⟨t, hd, hid, -⟩ | ⟨e', he, ha, hf⟩
  · rw [authorize_eq_ok_iff.mpr ⟨hd, hid⟩] at h
    cases h
  · rw [he] at h
    rw [← Except.error.inj h]
    exact ⟨ha, hf⟩

/-- An end request under a superseded identity may be answered positively, but
it ends nothing. -/
theorem finish_of_passed (h : c.Passed x id) (o : Outcome) :
    OnlyFenced c (c.finish x id o).1 ∧ ∀ closing, (c.finish x id o).2 ≠ .ok (some closing) := by
  obtain ⟨w, hd, hlt⟩ := h
  rcases finish_spec c x id o with ⟨t, hd', hid, -⟩ | hf
  · rw [hd] at hd'
    rw [hid, Option.some.inj hd'] at hlt
    exact absurd rfl (Identity.ne_of_lt hlt)
  · exact hf

theorem fences_of_passed (hs : c.Sound) (h : c.Passed x id) : c.Fences x id where
  refused := by
    obtain ⟨w, hd, hlt⟩ := h
    have ha := authorize_of_passed hs hd hlt
    exact ⟨w, hd, hlt, fun now ps => (enroll_of_error ha now ps).1,
      fun p => (permit_spec c x id p).2.2 _ ha⟩
  inert := fun op hop => by
    cases op with
    | enroll now y id' ps =>
      obtain ⟨rfl, rfl⟩ := hop
      obtain ⟨w, hd, hlt⟩ := h
      exact (enroll_of_error (authorize_of_passed hs hd hlt) now ps).2
    | permit y id' p => exact (permit_spec c y id' p).1
    | finish y id' o =>
      obtain ⟨rfl, rfl⟩ := hop
      exact (finish_of_passed h o).1
    | init y timeout => exact hop.elim
    | expire now => exact hop.elim

/-! ### Over a run -/

theorem passed_act (hs : c.Sound) (h : c.Passed x id) (op : Op) : (c.act op).Passed x id := by
  obtain ⟨w, hd, hlt⟩ := h
  obtain ⟨u, hu, hi⟩ := Turn.identity hs hd (hd ▸ turn hs.named op x)
  refine ⟨u, hu, ?_⟩
  rcases hi with hi | hi
  · rwa [hi]
  · exact Identity.lt_trans hlt hi

theorem passed_run (ops : List Op) {c : Coordinator} (hs : c.Sound) (h : c.Passed x id) :
    (c.run ops).Passed x id := by
  induction ops generalizing c with
  | nil => exact h
  | cons op ops ih => exact ih (sound_act hs op) (passed_act hs h op)

/-- An operation that changes an identity has superseded it. -/
theorem passed_of_ne (hs : c.Sound) {op : Op} {t u : Transaction} (hd : c.describe x = some t)
    (hu : (c.act op).describe x = some u) (hne : u.identity ≠ t.identity) :
    (c.act op).Passed x t.identity := by
  obtain ⟨u', hu', hi⟩ := Turn.identity hs hd (hd ▸ turn hs.named op x)
  rw [hu] at hu'
  obtain rfl := Option.some.inj hu'
  exact ⟨u, hu, hi.resolve_left hne⟩

/-- What a run keeps: identities are new when they are answered, and one that
was superseded on the way is fenced at the end. -/
structure KeepsFences (c : Coordinator) (ops : List Op) : Prop where
  ascending : (c.issued ops).Pairwise fun a b => (a.1 = b.1 → a.2 < b.2) ∧ a.2 ≠ b.2
  fenced : ∀ before op after x t u, ops = before ++ op :: after →
    (c.run before).describe x = some t → ((c.run before).act op).describe x = some u →
    u.identity ≠ t.identity → (c.run ops).Fences x t.identity

theorem keepsFences (hs : c.Sound) (ops : List Op) : c.KeepsFences ops where
  ascending := ascending_issued ops hs
  fenced := fun before op after x t u he hd hu hne => by
    subst he
    have hb := sound_run hs before
    rw [run_append]
    exact fences_of_passed (sound_run hb (op :: after))
      (passed_run after (sound_act hb op) (passed_of_ne hb hd hu hne))

end Coordinator
end FencedLog
