/-
# Which transaction an acknowledged record is in

An identity may be handed over: others that have resumed it may commit or
abort what a session has begun, and the session may not hear how its own end
request was answered. The session goes on in its transaction, and so does its
worker with the partitions that it has enrolled.

A record that is acknowledged lies in the transaction in which its partition
was enrolled last (`Placed`). A write to a partition that is enrolled already
is refused once the transaction has been ended. A write to another partition
enrolls it, and that starts a new transaction in which the earlier records are
not. So the records of a session's transaction lie in one transaction of the
coordinator exactly if their partitions were enrolled in one, and a commit
that succeeds has committed the one that was enrolled in last; what else was
acknowledged ended as others have ended it (`handoff_split`).

Key definitions: `Scene.Faithful`, `Scene.Placed`.
Key theorems: `Reaches.faithful`, `Scene.handoff`, `Scene.handoff_split`.
-/
import FencedLog.Proofs.Scene.Concluded
import FencedLog.Proofs.Scene.Delivered

namespace FencedLog

/-! ### Every scene -/

/-- What holds of every scene in which nobody else writes for the session. -/
structure Scene.Faithful (σ : Scene) : Prop where
  coupled : σ.Coupled
  enlisted : σ.Enlisted
  concluded : σ.Concluded
  delivered : σ.Delivered

theorem Scene.faithful_start (broker : BrokerConfig) (config : SessionConfig) :
    (Scene.start broker config).Faithful :=
  ⟨Scene.coupled_start .., Scene.enlisted_start .., Scene.concluded_start .., Scene.delivered_start ..⟩

theorem Scene.Faithful.act {σ : Scene} (h : σ.Faithful) {a : Act} (ha : σ.Fair a) :
    (σ.act a).Faithful := by
  obtain ⟨hs, hc⟩ := h.coupled.act a
  exact ⟨hc, h.enlisted.step h.coupled hc hs ha, h.concluded.step h.enlisted h.coupled hs,
    h.delivered.step h.coupled hc hs⟩

theorem Reaches.faithful {broker : BrokerConfig} {config : SessionConfig} {σ : Scene}
    (h : Reaches Scene.Fair (.start broker config) σ) : σ.Faithful :=
  h.keeps (Scene.faithful_start broker config) fun _ _ hρ ha => hρ.act ha

/-! ### What acknowledgments vouch for -/

/-- The placement that an acknowledgment gives for a record that was appended. -/
def placementOf : TopicPartition × Nat × Record → Placement
  | (p, offset, r) => ⟨p.topic, p.partition, offset, r.time⟩

/-- These are the records that the acknowledgments of a chapter tell of, as the
broker has appended them. -/
structure Chapter.Vouched (chapter : Chapter) (xs : List Writ) : Prop where
  writs : xs.Sublist chapter.writs
  acks : chapter.acks.map (·.2) = xs.map fun x => placementOf x.place

theorem Delivered.vouched {chapter : Chapter} {landed done : List Receipt} {cargo : List Freight}
    (h : Delivered chapter landed cargo done) : ∃ xs, chapter.Vouched xs := by
  have hdone : (done.map Receipt.place).Sublist (chapter.writs.map Writ.place) :=
    ((List.sublist_append_left done landed).map _).trans h.writs
  obtain ⟨xs, hxs, heq⟩ := List.sublist_map_iff.mp hdone
  refine ⟨xs, hxs, ?_⟩
  calc chapter.acks.map (·.2)
      = (done.map Receipt.place).map placementOf := by
        rw [h.acks, List.map_map, List.map_map]
        rfl
    _ = xs.map fun x => placementOf x.place := by
        rw [heq, List.map_map]
        rfl

namespace Scene

/-- Where the acknowledged records of a scene's chapter are. -/
structure Placed (σ : Scene) (xs : List Writ) : Prop where
  vouched : σ.chapter.Vouched xs
  /-- A record is in the transaction of the session's identity in which its
  partition was enrolled last. -/
  own : ∀ x ∈ xs, ∃ T, x.txn = some T ∧ σ.chapter.enrolledIn x.partition = some T ∧
    T.txid = σ.session.config.txid ∧ σ.session.identity = some T.identity
  /-- So all are in one transaction exactly if their partitions were enrolled in
  one. -/
  one : (∃ T, ∀ x ∈ xs, x.txn = some T) ↔ ∃ T, ∀ x ∈ xs, σ.chapter.enrolledIn x.partition = some T
  /-- Two are in different ones only if one of these has been ended. -/
  apart : ∀ x ∈ xs, ∀ y ∈ xs, ∀ T U, x.txn = some T → y.txn = some U → T ≠ U →
    (∃ o, σ.chronicle.ledger.ended T = some o) ∨ ∃ o, σ.chronicle.ledger.ended U = some o
  /-- A commit that succeeds has committed the transaction that was enrolled in
  last. -/
  committed : Ended σ.call .commit →
    ∀ T, σ.chapter.newest = some T → σ.chronicle.ledger.ended T = some .commit
  /-- It has kept all records exactly if their partitions were enrolled in
  transactions that were committed. -/
  kept : Ended σ.call .commit →
    ((∀ x ∈ xs, ∃ T, x.txn = some T ∧ σ.chronicle.ledger.ended T = some .commit) ↔
      ∀ x ∈ xs, ∃ T, σ.chapter.enrolledIn x.partition = some T ∧
        σ.chronicle.ledger.ended T = some .commit)
  /-- What it has not kept is in an earlier transaction than the one that it has
  committed. -/
  lost : Ended σ.call .commit → ∀ x ∈ xs, ∀ T, x.txn = some T →
    σ.chronicle.ledger.ended T ≠ some .commit →
      ∃ U, σ.chapter.newest = some U ∧ U ≠ T ∧ σ.chronicle.ledger.ended U = some .commit

/-- A record that was appended is in the transaction in which its partition was
enrolled last, and that transaction has been started. -/
theorem Faithful.own {σ : Scene} (h : σ.Faithful) {x : Writ} (hx : x ∈ σ.chapter.writs) :
    ∃ T, x.txn = some T ∧ σ.chapter.enrolledIn x.partition = some T ∧
      T.txid = σ.session.config.txid ∧ σ.session.identity = some T.identity ∧
      σ.chronicle.Begun T := by
  cases hw : σ.session.stance.worker with
  | none =>
    rw [(h.enlisted.unmanned hw).2] at hx
    cases hx
  | some w =>
    have hm := h.coupled.manned w hw
    have he := h.enlisted.manned w hw
    obtain ⟨htxn, hne, -⟩ := he.writs x hx
    obtain ⟨T, hT⟩ := Option.ne_none_iff_exists'.mp hne
    have hin : σ.chapter.enrolledIn x.partition = some T := htxn.symm.trans hT
    obtain ⟨e, hmem, heT⟩ := Chapter.enrolledIn_mem hin
    obtain ⟨U, hU, htxid, hid, hb⟩ := he.own e hmem
    obtain rfl := Option.some.inj (hU.symm.trans heT)
    refine ⟨U, hT, hin, htxid.trans hm.txid, ?_, hb⟩
    rw [hid]
    exact hm.identity

/-- Where a record was appended partitions were enrolled. -/
theorem Faithful.newest {σ : Scene} (h : σ.Faithful) {x : Writ} (hx : x ∈ σ.chapter.writs) :
    ∃ U, σ.chapter.newest = some U := by
  obtain ⟨T, -, hin, -⟩ := h.own hx
  obtain ⟨e, hmem, -⟩ := Chapter.enrolledIn_mem hin
  have hne : σ.chapter.enrollments ≠ [] := List.ne_nil_of_mem hmem
  cases hw : σ.session.stance.worker with
  | none => exact absurd (h.enlisted.unmanned hw).1 hne
  | some w =>
    obtain ⟨U, hU, -⟩ := (h.enlisted.manned w hw).own _ (List.getLast_mem hne)
    exact ⟨U, by rw [Chapter.newest, List.getLast?_eq_some_getLast hne, Option.bind_some, hU]⟩

/-- Two transactions of one transactional id are open only if they are one. -/
theorem ended_of_ne {c : Chronicle} {T U : Txn} (hT : c.Begun T) (hU : c.Begun U)
    (hx : T.txid = U.txid) (hne : T ≠ U) :
    (∃ o, c.ledger.ended T = some o) ∨ ∃ o, c.ledger.ended U = some o := by
  rcases hT with hT | hT
  · rcases hU with hU | hU
    · exact absurd (hT.unique hU hx) hne
    · exact Or.inr hU
  · exact Or.inl hT

/-- **Acknowledged records lie in the transactions in which their partitions
were enrolled, and a commit that succeeds keeps those of the last one.** -/
theorem handoff {broker : BrokerConfig} {config : SessionConfig} {σ : Scene}
    (h : Reaches Fair (start broker config) σ) : ∃ xs, σ.Placed xs := by
  have hf := h.faithful
  obtain ⟨done, hdone⟩ := hf.delivered
  obtain ⟨xs, hxs⟩ := hdone.vouched
  have own : ∀ x ∈ xs, _ := fun x hx => hf.own (hxs.writs.subset hx)
  -- the two transactions of a record are the same
  have same : ∀ x ∈ xs, x.txn = σ.chapter.enrolledIn x.partition := fun x hx => by
    obtain ⟨T, hT, hin, -⟩ := own x hx
    rw [hT, hin]
  refine ⟨xs, hxs, fun x hx => ?_, ?_, fun x hx y hy T U hT hU hne => ?_, hf.concluded.committed,
    fun _ => ?_, fun hend x hx T hT hno => ?_⟩
  · obtain ⟨T, hT, hin, htxid, hid, -⟩ := own x hx
    exact ⟨T, hT, hin, htxid, hid⟩
  · exact exists_congr fun T => forall₂_congr fun x hx => by rw [same x hx]
  · obtain ⟨T', hT', -, htxid, -, hb⟩ := own x hx
    obtain ⟨U', hU', -, htxid', -, hb'⟩ := own y hy
    obtain rfl := Option.some.inj (hT'.symm.trans hT)
    obtain rfl := Option.some.inj (hU'.symm.trans hU)
    exact ended_of_ne hb hb' (htxid.trans htxid'.symm) hne
  · exact forall₂_congr fun x hx => by rw [same x hx]
  · obtain ⟨U, hU⟩ := hf.newest (hxs.writs.subset hx)
    have hcommit := hf.concluded.committed hend U hU
    exact ⟨U, hU, fun he => hno (he ▸ hcommit), hcommit⟩

/-! ### One transaction in two -/

/-- The settings of a session with a transactional id, and a record for a
partition of a topic. -/
def settings : SessionConfig := { SessionConfig.default with txid := "tx" }

def draftFor (partition : Int) : Draft := ⟨"T", some partition, none, ⟨#[]⟩, some 1⟩

/-- A session writes to a partition, somebody who has resumed its identity
aborts, and the session writes to another partition and commits. -/
def abortedMeanwhile : List Act := [
  .others (.createTopic "T" 2),
  .call .init, .reach .own .zero none, .hear .own,
  .call .begin, .round 1,
  .call (.send (draftFor 0) ⟨0, .future⟩ 0), .reach .own .zero none, .hear .own,
  .round 1, .reach .work .zero none, .hear .work, .reach .work .zero none, .hear .work,
  .others (.request .zero (.finish "tx" ⟨1000, 0⟩ .abort)),
  .call (.send (draftFor 1) ⟨1, .future⟩ 0),
  .round 1, .reach .work .zero none, .hear .work, .reach .work .zero none, .hear .work,
  .call (.finish .commit), .round 1, .wake, .reach .own .zero none, .hear .own]

theorem admits_abortedMeanwhile : (start .default settings).Admits Fair abortedMeanwhile := by
  simp [abortedMeanwhile, Admits, Fair, Writes]

theorem handoff_abortedMeanwhile :
    Reaches Fair (start .default settings) ((start .default settings).run abortedMeanwhile) ∧
      ∃ xs, ((start .default settings).run abortedMeanwhile).Placed xs :=
  ⟨Reaches.refl.run admits_abortedMeanwhile, handoff (Reaches.refl.run admits_abortedMeanwhile)⟩

/-- **A commit succeeds, and of the two records that were acknowledged one has
been aborted.** -/
theorem handoff_split : ∃ σ, Reaches Fair (start .default settings) σ ∧ Ended σ.call .commit ∧
    ∃ x y T U, σ.chapter.writs = [x, y] ∧ σ.chapter.Vouched [x, y] ∧ x.txn = some T ∧
      y.txn = some U ∧ T ≠ U ∧ σ.chronicle.ledger.ended T = some .abort ∧
      σ.chronicle.ledger.ended U = some .commit := by
  refine ⟨(start .default settings).run abortedMeanwhile, Reaches.refl.run admits_abortedMeanwhile,
    ⟨_, rfl⟩, ⟨⟨"T", 0⟩, 0, (draftFor 0).record 0, some ⟨"tx", ⟨1000, 0⟩, 1⟩⟩,
    ⟨⟨"T", 1⟩, 0, (draftFor 1).record 0, some ⟨"tx", ⟨1000, 0⟩, 2⟩⟩,
    ⟨"tx", ⟨1000, 0⟩, 1⟩, ⟨"tx", ⟨1000, 0⟩, 2⟩, rfl, ⟨List.Sublist.refl _, ?_⟩, rfl, rfl, ?_, ?_, ?_⟩ <;>
    decide +kernel

end Scene
end FencedLog
