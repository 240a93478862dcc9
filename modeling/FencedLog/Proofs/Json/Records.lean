/-
# Stored values come back

A token, an identity, a placement, the settings: whatever is stored is read back
from its text as it was, if its numbers fit the words that they are kept in
(`Fits`). Strings may hold any characters, and a span any nanoseconds. So a
session that resumes from the stored token of another one has the identity of
that one, and no other (`lossless`).

Key definitions: `Signed`, `Unsigned`, `Stored.Survives`, `Stored.Lossless`.
Key theorems: `Json.bind_fields?`, `Stored.survives_of_json`,
`Session.resumes`, `Stored.lossless`.
-/
import FencedLog.Json.Stored
import FencedLog.Proofs.Json.RoundTrip
import FencedLog.Session.Operation

namespace FencedLog

/-! ### Words -/

/-- A number that a word of so many bits can hold, the sign included. -/
def Signed (bits : Nat) (n : Int) : Prop :=
  -Int.pow 2 (bits - 1) ≤ n ∧ n < Int.pow 2 (bits - 1)

/-- A count that a word of so many bits can hold. -/
def Unsigned (bits : Nat) (n : Nat) : Prop := n < Nat.pow 2 bits

namespace Json

/-- A word is read over its whole range. -/
theorem asInt?_int {bits : Nat} {n : Int} (h : Signed bits n) :
    asInt? (-Int.pow 2 (bits - 1)) (Int.pow 2 (bits - 1) - 1) (int n) = some n :=
  if_pos ⟨h.1, Int.le_sub_one_of_lt h.2⟩

theorem asInt16?_int {n : Int} (h : Signed 16 n) : asInt16? (int n) = some n := asInt?_int h

theorem asInt32?_int {n : Int} (h : Signed 32 n) : asInt32? (int n) = some n := asInt?_int h

theorem asInt64?_int {n : Int} (h : Signed 64 n) : asInt64? (int n) = some n := asInt?_int h

theorem asNat?_nat {limit n : Nat} (h : n < limit) : asNat? limit (nat n) = some n := if_pos h

theorem asNat32?_nat {n : Nat} (h : Unsigned 32 n) : asNat32? (nat n) = some n := asNat?_nat h

theorem asNat64?_nat {n : Nat} (h : Unsigned 64 n) : asNat64? (nat n) = some n := asNat?_nat h

/-! ### Records -/

theorem find_eq_none {name : String} : ∀ {fields : List (String × Json)},
    name ∉ fields.map Prod.fst → Fields.find name fields = none
  | [], _ => rfl
  | (k, v) :: fields, h => by
    rw [List.map_cons, List.mem_cons, not_or] at h
    rw [Fields.find, if_neg (Ne.symm h.1)]
    exact find_eq_none h.2

theorem collect_object {names : List String} (closed : Bool) : ∀ {fields : List (String × Json)},
    (fields.map Prod.fst).Nodup → (∀ k ∈ fields.map Prod.fst, k ∈ names) →
    collect names closed (fields.map fun (k, v) => (some k, v)) = some fields
  | [], _, _ => rfl
  | (k, v) :: fields, hnodup, hnames => by
    obtain ⟨hk, hnodup⟩ := List.nodup_cons.mp hnodup
    have ih := collect_object closed hnodup fun k hk => hnames k (List.mem_cons_of_mem _ hk)
    have hmem : k ∈ names := hnames k List.mem_cons_self
    rw [List.map_cons, collect, ih]
    simp [hmem, find_eq_none hk]

/-- A record that is written with all its fields is read from all of them. -/
theorem bind_fields? {α : Type} {names : List String} {fields : List (String × Json)}
    (h : fields.map Prod.fst = names) (hnodup : names.Nodup) (closed : Bool)
    (read : Fields → Option α) :
    (fields? names closed (object fields)).bind read = read ⟨true, fields⟩ := by
  subst h
  rw [object, fields?, collect_object closed hnodup fun _ hk => hk]
  rfl

section Fields

variable {α : Type} (byName : Bool) (k : String) (v : Json) (rest : List (String × Json))
  (name : String) (read : Json → Option α)

@[simp] theorem required_cons : Fields.required ⟨byName, (k, v) :: rest⟩ name read =
    if k = name then read v else Fields.required ⟨byName, rest⟩ name read := by
  by_cases h : k = name <;> simp [Fields.required, Fields.get?, Fields.find, h]

theorem withDefault_cons (value : α) :
    Fields.withDefault ⟨byName, (k, v) :: rest⟩ name read value =
      if k = name then read v else Fields.withDefault ⟨byName, rest⟩ name read value := by
  by_cases h : k = name <;> simp [Fields.withDefault, Fields.get?, Fields.find, h]

end Fields

theorem asList?_map {α : Type} {f : α → Json} {read : Json → Option α}
    (h : ∀ a, read (f a) = some a) (l : List α) : asList? read (arr (l.map f)) = some l := by
  rw [asList?]
  induction l with
  | nil => rfl
  | cons a l ih => simp [List.mapM_cons, h a, ih]

end Json

open Json

/-- The seconds fit their word. -/
def Span.Fits (s : Span) : Prop := Unsigned 64 s.secs

theorem Span.Fits.lt {s : Span} (h : s.Fits) : s.secs < Text.wordLimit := h

theorem Json.asSpan?_ofSpan {s : Span} (h : s.Fits) : asSpan? (ofSpan s) = some s := by
  have hsecs : Fields.required ⟨true, [("secs", nat s.secs), ("nanos", nat s.subsec)]⟩ "secs"
      (asNat? Text.wordLimit) = some s.secs := by
    rw [required_cons, if_pos rfl, asNat?_nat h.lt]
  have hnanos : Fields.required ⟨true, [("secs", nat s.secs), ("nanos", nat s.subsec)]⟩ "nanos"
      (asNat? 0x100000000) = some s.subsec := by
    have hlt : s.subsec < Span.perSecond := Nat.mod_lt _ (by decide)
    rw [required_cons, if_neg (by decide), required_cons, if_pos rfl,
      asNat?_nat (Nat.lt_trans hlt (by decide))]
  rw [asSpan?, ofSpan, Option.bind_eq_bind, bind_fields? (by rfl) (by decide), hsecs,
    Option.bind_eq_bind, Option.bind_some, hnanos, Option.bind_some, Span.ofParts_parts]
  exact if_pos h.lt

/-! ### Identities and places -/

structure Identity.Fits (id : Identity) : Prop where
  producer : Signed 64 id.producer
  epoch : Signed 16 id.epoch

theorem Identity.ofJson?_toJson {id : Identity} (h : id.Fits) :
    Stored.ofJson? (Stored.toJson id) = some id := by
  refine (bind_fields? (by rfl) (by decide) _ _).trans ?_
  simp [asInt64?_int h.producer, asInt16?_int h.epoch]

structure ResumeToken.Fits (t : ResumeToken) : Prop where
  producer : Signed 64 t.producer
  epoch : Signed 16 t.epoch

theorem ResumeToken.ofJson?_toJson {t : ResumeToken} (h : t.Fits) :
    Stored.ofJson? (Stored.toJson t) = some t := by
  refine (bind_fields? (by rfl) (by decide) _ _).trans ?_
  simp [asString?, asInt64?_int h.producer, asInt16?_int h.epoch]

def TopicPartition.Fits (p : TopicPartition) : Prop := Signed 32 p.partition

theorem TopicPartition.ofJson?_toJson {p : TopicPartition} (h : p.Fits) :
    Stored.ofJson? (Stored.toJson p) = some p := by
  refine (bind_fields? (by rfl) (by decide) _ _).trans ?_
  simp [asString?, asInt32?_int h]

structure PartitionInfo.Fits (p : PartitionInfo) : Prop where
  partition : Signed 32 p.partition
  leader : ∀ b, p.leader = some b → Signed 32 b

theorem PartitionInfo.ofJson?_toJson {p : PartitionInfo} (h : p.Fits) :
    Stored.ofJson? (Stored.toJson p) = some p := by
  obtain ⟨topic, partition, leader⟩ := p
  refine (bind_fields? (by rfl) (by decide) _ _).trans ?_
  simp only [required_cons, ↓reduceIte, String.reduceEq, asString?, asInt32?_int h.partition]
  cases leader with
  | none => simp [Fields.nullable, Fields.get?, Fields.find, ofOption]
  | some b =>
    have hb := asInt32?_int (h.leader b rfl)
    simp [Fields.nullable, Fields.get?, Fields.find, ofOption, hb]

structure Placement.Fits (p : Placement) : Prop where
  partition : Signed 32 p.partition
  offset : Unsigned 64 p.offset
  time : Signed 64 p.time

theorem Placement.ofJson?_toJson {p : Placement} (h : p.Fits) :
    Stored.ofJson? (Stored.toJson p) = some p := by
  refine (bind_fields? (by rfl) (by decide) _ _).trans ?_
  simp [asString?, asInt32?_int h.partition, asNat64?_nat h.offset, asInt64?_int h.time]

/-! ### Settings -/

structure BrokerConfig.Fits (c : BrokerConfig) : Prop where
  maxTransactionTimeout : c.maxTransactionTimeout.Fits
  maxRecordBytes : Unsigned 64 c.maxRecordBytes
  defaultPartitions : Unsigned 32 c.defaultPartitions

theorem BrokerConfig.ofJson?_toJson {c : BrokerConfig} (h : c.Fits) :
    Stored.ofJson? (Stored.toJson c) = some c := by
  refine (bind_fields? (by rfl) (by decide) _ _).trans ?_
  simp [withDefault_cons, asSpan?_ofSpan h.maxTransactionTimeout, asNat64?_nat h.maxRecordBytes,
    asNat32?_nat h.defaultPartitions, asBool?]

structure SessionConfig.Fits (c : SessionConfig) : Prop where
  transactionTimeout : c.transactionTimeout.Fits
  requestTimeout : c.requestTimeout.Fits
  maxBatch : Unsigned 64 c.maxBatch
  queueCapacity : Unsigned 64 c.queueCapacity
  closeTimeout : c.closeTimeout.Fits

theorem Isolation.asName?_text (i : Isolation) : asName? names (.str i.text) = some i := by
  cases i <;> rfl

theorem SessionConfig.ofJson?_toJson {c : SessionConfig} (h : c.Fits) :
    Stored.ofJson? (Stored.toJson c) = some c := by
  refine (bind_fields? (by rfl) (by decide) _ _).trans ?_
  have hservers : asList? asString? (.arr (c.servers.map .str)) = some c.servers :=
    asList?_map (f := Json.str) (fun _ => rfl) c.servers
  simp [withDefault_cons, asString?, hservers, asSpan?_ofSpan h.transactionTimeout,
    asSpan?_ofSpan h.requestTimeout, asNat64?_nat h.maxBatch, asNat64?_nat h.queueCapacity,
    Isolation.asName?_text, asSpan?_ofSpan h.closeTimeout]

/-! ### To resume from a token -/

namespace Session

/-- The session may take the identity of the transactional id as its own. -/
structure MayResume (s : Session) (x : String) (id : Identity) : Prop where
  idle : s.wait = .nothing
  new : s.lifecycle = .uninitialized
  txid : s.config.txid = x
  valid : 0 ≤ id.producer ∧ 0 ≤ id.epoch

variable {s : Session} {t : ResumeToken}

theorem resumeFrom_of_mayResume (h : s.MayResume t.txid t.identity) :
    s.step (.called (.resumeFrom t)) = (s.acquire t.identity true).finished (.ok .done) := by
  have hp : 0 ≤ t.producer := h.valid.1
  have he : 0 ≤ t.epoch := h.valid.2
  have hvalid : ¬ (t.producer < 0 ∨ t.epoch < 0) := by omega
  simp [step, h.idle, called, h.new, h.txid, resume, hvalid, ResumeToken.identity]

theorem resumeFrom_refused (h : ¬ s.MayResume t.txid t.identity) :
    (s.step (.called (.resumeFrom t))).2 ≠ [.returned (.ok .done)] ∧
      (s.step (.called (.resumeFrom t))).1.identity = s.identity := by
  by_cases hw : s.wait = .nothing
  · by_cases hl : s.lifecycle = .uninitialized
    · by_cases hx : t.txid = s.config.txid
      · by_cases hvalid : t.producer < 0 ∨ t.epoch < 0
        · simp [step, hw, called, hl, hx, resume, hvalid, failed, finished]
        · refine absurd ⟨hw, hl, hx.symm, ?_⟩ h
          show 0 ≤ t.producer ∧ 0 ≤ t.epoch
          omega
      · simp [step, hw, called, hl, hx, failed, finished]
    · simp [step, hw, called, hl, illegal, failed, finished]
  · cases hs : s.wait with
    | nothing => exact absurd hs hw
    | _ => simp [step, hs]

/-- Told to resume from the token, the session takes this identity if it may,
and otherwise reports no success and keeps its own. -/
structure Resumes (s : Session) (t : ResumeToken) (x : String) (id : Identity) : Prop where
  taken : s.MayResume x id → (s.step (.called (.resumeFrom t))).2 = [.returned (.ok .done)] ∧
    (s.step (.called (.resumeFrom t))).1.identity = some id
  refused : ¬ s.MayResume x id → (s.step (.called (.resumeFrom t))).2 ≠ [.returned (.ok .done)] ∧
    (s.step (.called (.resumeFrom t))).1.identity = s.identity

theorem resumes (s : Session) (t : ResumeToken) : s.Resumes t t.txid t.identity where
  taken := fun h => by
    rw [resumeFrom_of_mayResume h]
    exact ⟨rfl, rfl⟩
  refused := resumeFrom_refused

/-- A token holds the identity of the session that gave it. -/
theorem token_eq_ok (h : s.token = .ok t) :
    s.identity = some t.identity ∧ s.config.txid = t.txid := by
  unfold token currentIdentity at h
  split at h
  · cases hi : s.identity with
    | none => simp [hi, Except.map] at h
    | some id =>
      simp only [hi, Except.map, Except.ok.injEq] at h
      subst h
      exact ⟨rfl, rfl⟩
  · simp [Except.map] at h

end Session

/-! ### What is stored -/

namespace Stored

/-- The value comes back from its stored text. -/
def Survives {α : Type} [Stored α] (a : α) : Prop := read? (text a) = some a

theorem survives_of_json {α : Type} [Stored α] {a : α} (h : ofJson? (toJson a) = some a) :
    Survives a := by
  rw [Survives, read?, text, ofText?_text]
  exact h

/-- Nothing is lost in storing. -/
structure Lossless : Prop where
  identity : ∀ id : Identity, id.Fits → Survives id
  token : ∀ t : ResumeToken, t.Fits → Survives t
  partition : ∀ p : TopicPartition, p.Fits → Survives p
  listing : ∀ p : PartitionInfo, p.Fits → Survives p
  placement : ∀ p : Placement, p.Fits → Survives p
  brokerConfig : ∀ c : BrokerConfig, c.Fits → Survives c
  sessionConfig : ∀ c : SessionConfig, c.Fits → Survives c
  /-- The stored token of a session makes another one resume with its identity. -/
  resumes : ∀ (a : Session) (t : ResumeToken), a.token = .ok t → t.Fits →
    ∃ t' id, read? (text t) = some t' ∧ a.identity = some id ∧
      ∀ b : Session, b.Resumes t' a.config.txid id

/-- **What is stored comes back.** -/
theorem lossless : Lossless where
  identity := fun _ h => survives_of_json (Identity.ofJson?_toJson h)
  token := fun _ h => survives_of_json (ResumeToken.ofJson?_toJson h)
  partition := fun _ h => survives_of_json (TopicPartition.ofJson?_toJson h)
  listing := fun _ h => survives_of_json (PartitionInfo.ofJson?_toJson h)
  placement := fun _ h => survives_of_json (Placement.ofJson?_toJson h)
  brokerConfig := fun _ h => survives_of_json (BrokerConfig.ofJson?_toJson h)
  sessionConfig := fun _ h => survives_of_json (SessionConfig.ofJson?_toJson h)
  resumes := fun a t h hfits => by
    obtain ⟨hid, hx⟩ := Session.token_eq_ok h
    refine ⟨t, t.identity, survives_of_json (ResumeToken.ofJson?_toJson hfits), hid, fun b => ?_⟩
    rw [hx]
    exact b.resumes t

end Stored
end FencedLog
