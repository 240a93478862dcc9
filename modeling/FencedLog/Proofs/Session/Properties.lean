/-
# Settings do not depend on the order of the properties

What settings a table of properties describes is told by what it has for each
of the seven known keys (`Described`). Read in any order, the properties come to
the settings that are described and sound, if there are any, and otherwise to a
fault (`orderless`). So neither the order nor any other key matters. Only which
of several faults is reported depends on the order.

Key definitions: `Properties.known`, `Properties.reading`, `Properties.Described`,
`Properties.Alike`.
Key theorems: `Properties.described_cons`, `Properties.setAll_ok_iff`,
`Properties.orderless`.
-/
import FencedLog.Proofs.Keys
import FencedLog.Proofs.World.Recovery
import FencedLog.Session.Properties
import Mathlib.Tactic.MkIffOfInductiveProp

namespace FencedLog
namespace Properties

/-! ### What properties describe -/

/-- The keys that say something. -/
def known : List String :=
  ["transactional.id", "bootstrap.servers", "transaction.timeout.ms", "request.timeout.ms",
    "batch.size", "delivery.queue.capacity", "isolation.level"]

/-- A setting that is `x` so far: what the text, if there is one, reads as without
the blanks at its ends. -/
def reading {α : Type} (text : Option String) (read : String → Option α) (x : α) : Option α :=
  match text with
  | none => some x
  | some value => read (Text.trim value)

/-- A count of milliseconds. -/
def millis? (value : String) : Option Span := (Text.natural? Text.wordLimit value).map .ofMillis

/-- With these texts for its keys, the settings `c` become `d`. -/
@[mk_iff]
structure Described (texts : String → Option String) (c d : SessionConfig) : Prop where
  txid : reading (texts "transactional.id") some c.txid = some d.txid
  servers : reading (texts "bootstrap.servers") (fun value => some (items value)) c.servers =
    some d.servers
  transactionTimeout : reading (texts "transaction.timeout.ms") millis? c.transactionTimeout =
    some d.transactionTimeout
  requestTimeout : reading (texts "request.timeout.ms") millis? c.requestTimeout =
    some d.requestTimeout
  maxBatch : reading (texts "batch.size") (Text.natural? Text.wordLimit) c.maxBatch = some d.maxBatch
  queueCapacity : reading (texts "delivery.queue.capacity") (Text.natural? Text.wordLimit)
    c.queueCapacity = some d.queueCapacity
  isolation : reading (texts "isolation.level")
    (fun value => Isolation.names.lookup (Text.lowered value)) c.isolation = some d.isolation
  closeTimeout : c.closeTimeout = d.closeTimeout

theorem Described.congr {texts texts' : String → Option String}
    (h : ∀ key ∈ known, texts key = texts' key) (c d : SessionConfig) :
    Described texts c d ↔ Described texts' c d := by
  simp only [known, List.forall_mem_cons] at h
  obtain ⟨h₁, h₂, h₃, h₄, h₅, h₆, h₇, -⟩ := h
  rw [described_iff, described_iff, h₁, h₂, h₃, h₄, h₅, h₆, h₇]

/-- Without texts, the settings stay. -/
theorem described_none {c d : SessionConfig} : Described (fun _ => none) c d ↔ c = d := by
  cases c
  cases d
  simp [described_iff, reading]

/-- A property with any other key is passed over. -/
theorem set_of_not_known {key : String} (h : key ∉ known) (value : String) (c : SessionConfig) :
    set c key value = .ok c := by
  simp only [known, List.mem_cons, List.not_mem_nil, or_false, not_or] at h
  simp [set, h]

theorem map_count_eq_ok {α : Type} {key value : String} {f : Nat → α} {a : α} :
    (count key value).map f = .ok a ↔ ∃ n, Text.natural? Text.wordLimit value = some n ∧ f n = a := by
  unfold count
  cases Text.natural? Text.wordLimit value <;> simp [Except.map]

/-- The first property is read, and then the others. -/
theorem described_cons {key value : String} {props : List (String × String)} {c d : SessionConfig}
    (hnone : Table.find key props = none) :
    Described (fun k => Table.find k ((key, value) :: props)) c d ↔
      ∃ c', set c key (Text.trim value) = .ok c' ∧ Described (fun k => Table.find k props) c' d := by
  by_cases hk : key ∈ known
  · -- of the settings only the one of the key has changed, and no other property is about it
    simp only [known, List.mem_cons, List.not_mem_nil, or_false] at hk
    rcases hk with rfl | rfl | rfl | rfl | rfl | rfl | rfl
    · simp [set, described_iff, Table.find, hnone, reading]
    · simp [set, described_iff, Table.find, hnone, reading]
    · cases hn : Text.natural? Text.wordLimit (Text.trim value) <;>
        simp [set, described_iff, Table.find, hnone, reading, map_count_eq_ok, millis?, hn]
    · cases hn : Text.natural? Text.wordLimit (Text.trim value) <;>
        simp [set, described_iff, Table.find, hnone, reading, map_count_eq_ok, millis?, hn]
    · cases hn : Text.natural? Text.wordLimit (Text.trim value) <;>
        simp [set, described_iff, Table.find, hnone, reading, map_count_eq_ok, hn]
    · cases hn : Text.natural? Text.wordLimit (Text.trim value) <;>
        simp [set, described_iff, Table.find, hnone, reading, map_count_eq_ok, hn]
    · cases hi : Isolation.names.lookup (Text.lowered (Text.trim value)) <;>
        simp [set, described_iff, Table.find, hnone, reading, Isolation.ofText, hi]
  · have hfind : ∀ k ∈ known, Table.find k ((key, value) :: props) = Table.find k props := by
      intro k hk'
      have hne : key ≠ k := fun he => hk (he ▸ hk')
      rw [Table.find, if_neg hne]
    rw [Described.congr hfind, set_of_not_known hk]
    simp

/-! ### What is read -/

/-- One property after the other: the first is read, then the others. -/
theorem setAll_cons_eq_ok {key value : String} {props : List (String × String)}
    {c d : SessionConfig} : setAll c ((key, value) :: props) = .ok d ↔
      ∃ c', set c key (Text.trim value) = .ok c' ∧ setAll c' props = .ok d := by
  rw [setAll]
  cases set c key (Text.trim value) <;> simp

/-- Properties with distinct keys are read as what they describe. -/
theorem setAll_ok_iff : ∀ {props : List (String × String)} {c d : SessionConfig},
    (props.map Prod.fst).Nodup →
      (setAll c props = .ok d ↔ Described (fun key => Table.find key props) c d)
  | [], c, d, _ => by
    rw [setAll, Except.ok.injEq]
    exact described_none.symm
  | (key, value) :: props, c, d, hk => by
    obtain ⟨hnew, hrest⟩ := List.nodup_cons.mp hk
    rw [setAll_cons_eq_ok, described_cons (Table.find_eq_none_iff.mpr hnew)]
    exact exists_congr fun c' => and_congr_right fun _ => setAll_ok_iff hrest

/-- A fault in a property is one of the settings. -/
theorem set_error {c : SessionConfig} {key value : String} {e : SessionError}
    (h : set c key value = .error e) : ∃ reason, e = .config reason := by
  have counted {α : Type} {f : Nat → α} (h : (count key value).map f = .error e) :
      ∃ reason, e = .config reason := by
    unfold count at h
    split at h
    · cases h
    · exact ⟨_, (Except.error.inj h).symm⟩
  unfold set at h
  split_ifs at h
  · exact counted h
  · exact counted h
  · exact counted h
  · exact counted h
  · split at h
    · cases h
    · exact ⟨_, (Except.error.inj h).symm⟩

theorem setAll_error : ∀ {props : List (String × String)} {c : SessionConfig} {e : SessionError},
    setAll c props = .error e → ∃ reason, e = .config reason
  | [], _, _, h => by cases h
  | (key, value) :: props, c, e, h => by
    rw [setAll] at h
    split at h
    · exact setAll_error h
    · rename_i hs
      obtain rfl := Except.error.inj h
      exact set_error hs

/-- Properties that say nothing can be left out. -/
theorem setAll_filter : ∀ (props : List (String × String)) (c : SessionConfig),
    setAll c (props.filter fun p => p.1 ∈ known) = setAll c props
  | [], _ => rfl
  | (key, value) :: props, c => by
    by_cases hk : key ∈ known
    · rw [List.filter_cons_of_pos (by simpa using hk), setAll, setAll]
      cases set c key (Text.trim value) with
      | ok d => exact setAll_filter props d
      | error e => rfl
    · rw [List.filter_cons_of_neg (by simpa using hk), setAll, set_of_not_known hk]
      exact setAll_filter props c

/-! ### From properties to a session -/

variable {props props' : List (String × String)}

/-- The settings that come out are those that were read, if they are sound. -/
theorem ofProperties_ok_iff {c : SessionConfig} : SessionConfig.ofProperties props = .ok c ↔
    setAll .default props = .ok c ∧ c.validate = .ok () := by
  unfold SessionConfig.ofProperties
  cases setAll .default props with
  | error e => simp
  | ok d =>
    rw [Except.ok.injEq]
    constructor
    · intro h
      cases hv : d.validate with
      | error e => simp [hv, Except.map] at h
      | ok u =>
        obtain rfl : d = c := by simpa [hv, Except.map] using h
        exact ⟨rfl, hv⟩
    · rintro ⟨rfl, hv⟩
      simp [hv, Except.map]

theorem ofProperties_error {e : SessionError} (h : SessionConfig.ofProperties props = .error e) :
    ∃ reason, e = .config reason := by
  unfold SessionConfig.ofProperties at h
  cases hs : setAll .default props with
  | error e' =>
    simp only [hs, Except.error.injEq] at h
    exact h ▸ setAll_error hs
  | ok c =>
    simp only [hs, SessionConfig.validate] at h
    split at h
    · exact ⟨_, (Except.error.inj h).symm⟩
    · cases h

/-- Both come to the same settings, or both to a fault in the settings. -/
def Alike (r r' : Except SessionError SessionConfig) : Prop :=
  (∃ c, r = .ok c ∧ r' = .ok c) ∨
    ∃ reason reason', r = .error (.config reason) ∧ r' = .error (.config reason')

/-- Rows of a table, in whatever order, are read as what the table describes. -/
theorem ofProperties_ok_iff_described {t : Table String String} (h : t.Distinct)
    (ho : props.Perm t.rows) {c : SessionConfig} : SessionConfig.ofProperties props = .ok c ↔
      Described t.get? .default c ∧ c.validate = .ok () := by
  have hkeys : (props.map Prod.fst).Nodup := (ho.map Prod.fst).nodup_iff.mpr h
  have hfind : ∀ key ∈ known, Table.find key props = t.get? key := fun key _ =>
    Table.find_of_perm hkeys ho key
  rw [ofProperties_ok_iff, setAll_ok_iff hkeys, Described.congr hfind]

/-- **Neither the order of the properties matters nor those with unknown keys.**
Two tables of properties that agree on the known keys, each in some order, come
to the same settings, which are the sound ones that they describe, or both to a
fault. -/
theorem orderless {t t' : Table String String} (h : t.Distinct) (h' : t'.Distinct)
    (hsame : ∀ key ∈ known, t.get? key = t'.get? key) (ho : props.Perm t.rows)
    (ho' : props'.Perm t'.rows) :
    Alike (SessionConfig.ofProperties props) (SessionConfig.ofProperties props') ∧
      SessionConfig.ofProperties (props.filter fun p => p.1 ∈ known) =
        SessionConfig.ofProperties props ∧
      ∀ c, (SessionConfig.ofProperties props = .ok c ↔
          Described t.get? .default c ∧ c.validate = .ok ()) ∧
        (SessionConfig.ofProperties props = .ok c →
          ∃ s, Session.build c true = .ok s ∧ s.config = c) := by
  have hiff {c : SessionConfig} : SessionConfig.ofProperties props = .ok c ↔
      SessionConfig.ofProperties props' = .ok c := by
    rw [ofProperties_ok_iff_described h ho, ofProperties_ok_iff_described h' ho',
      Described.congr hsame]
  refine ⟨?_, ?_, fun c => ⟨ofProperties_ok_iff_described h ho, fun hc => ?_⟩⟩
  · cases hp : SessionConfig.ofProperties props with
    | ok c => exact Or.inl ⟨c, rfl, hiff.mp hp⟩
    | error e =>
      cases hp' : SessionConfig.ofProperties props' with
      | ok c =>
        rw [hiff.mpr hp'] at hp
        cases hp
      | error e' =>
        obtain ⟨reason, rfl⟩ := ofProperties_error hp
        obtain ⟨reason', rfl⟩ := ofProperties_error hp'
        exact Or.inr ⟨reason, reason', rfl, rfl⟩
  · rw [SessionConfig.ofProperties, SessionConfig.ofProperties, setAll_filter]
  · have hv := (ofProperties_ok_iff.mp hc).2
    exact ⟨Session.fresh c, Session.build_ok hv, rfl⟩

/-- Properties of which two have a fault. -/
def faulty : Table String String :=
  ⟨[("transactional.id", "sink"), ("request.timeout.ms", "soon"), ("batch.size", "-1")]⟩

/-- The same in another order, with a key that nobody knows. -/
def faultyToo : Table String String :=
  ⟨[("batch.size", "-1"), ("key.serializer", "none"), ("request.timeout.ms", "soon"),
    ("transactional.id", "sink")]⟩

/-- Each order reports a fault of its own. -/
theorem orderless_faulty : faulty.Distinct ∧ faultyToo.Distinct ∧
    (∀ key ∈ known, faulty.get? key = faultyToo.get? key) ∧
    Alike (SessionConfig.ofProperties faulty.rows) (SessionConfig.ofProperties faultyToo.rows) ∧
    SessionConfig.ofProperties faulty.rows =
      .error (.config "invalid value 'soon' for request.timeout.ms") ∧
    SessionConfig.ofProperties faultyToo.rows =
      .error (.config "invalid value '-1' for batch.size") := by
  have h : faulty.Distinct := by
    unfold Table.Distinct
    decide
  have h' : faultyToo.Distinct := by
    unfold Table.Distinct
    decide
  have hsame : ∀ key ∈ known, faulty.get? key = faultyToo.get? key := by decide
  exact ⟨h, h', hsame, (orderless h h' hsame (List.Perm.refl _) (List.Perm.refl _)).1,
    by decide +kernel, by decide +kernel⟩

end Properties
end FencedLog
