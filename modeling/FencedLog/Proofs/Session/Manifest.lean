/-
# Where the sends of a transaction go

Where a draft goes depends on the number of partitions that its topic is taken
to have and on how many records were spread before it, and on nothing that
happens to the records on their way. So the sends of a transaction have their
partitions as soon as they are accepted (`manifest`), and the session routes
them so (`Session.route_of_arrives`).

Key definitions: `Draft.assign`, `Sent.assign`, `manifest`, `Sent.Arrives`,
`Session.Steers`.
Key theorems: `manifest_append`, `manifest_congr`, `Session.route_of_arrives`,
`Session.Steers.send`, `Session.Steers.routed`.
-/
import FencedLog.Proofs.Broker.Single

namespace FencedLog

/-- The partition of a draft among `count` of them, and the rotation after it. -/
def Draft.assign (draft : Draft) (count rotation : Nat) : TopicPartition × Nat :=
  match draft.partition, draft.key with
  | some p, _ => (⟨draft.topic, p⟩, rotation)
  | none, some key => (⟨draft.topic, KeyHash.partitionOf key count⟩, rotation)
  | none, none =>
    (⟨draft.topic, (rotation % count : Nat)⟩, (rotation + 1) % Text.wordLimit)

theorem Draft.assign_topic (draft : Draft) (count rotation : Nat) :
    (draft.assign count rotation).1.topic = draft.topic := by
  unfold assign
  split <;> rfl

namespace Sent

def record (x : Sent) : Record := x.draft.record x.present

/-- The load of a send, if topics have so many partitions, and the rotation
after it. -/
def assign (x : Sent) (count : String → Nat) (rotation : Nat) : Freight × Nat :=
  let (p, rotation) := x.draft.assign (count x.draft.topic) rotation
  ((p, x.record, x.ticket), rotation)

/-- The message of a send. -/
def pending (x : Sent) (count : String → Nat) (rotation : Nat) : Pending :=
  ⟨.ok (x.assign count rotation).1.1, x.record, x.ticket⟩

/-- A send whose destination exists, and whose record is not too large. -/
structure Arrives (x : Sent) (ours : String → Prop) (b : Broker) (count : String → Nat)
    (rotation : Nat) : Prop where
  there : 0 < count x.draft.topic
  asked : ∀ p, x.draft.partition = some p → 0 ≤ p ∧ p < count x.draft.topic
  takes : b.Takes ours (x.assign count rotation).1

instance (x : Sent) (ours : String → Prop) [DecidablePred ours] (b : Broker) (count : String → Nat)
    (rotation : Nat) : Decidable (x.Arrives ours b count rotation) :=
  decidable_of_iff (0 < count x.draft.topic ∧
      (∀ p ∈ x.draft.partition, 0 ≤ p ∧ p < count x.draft.topic) ∧
      ours (x.assign count rotation).1.1.topic ∧ (b.log? (x.assign count rotation).1.1).isSome ∧
      (x.assign count rotation).1.2.1.size ≤ b.config.maxRecordBytes)
    ⟨fun ⟨h, hp, ho, hl, hf⟩ => ⟨h, hp, ⟨ho, Option.isSome_iff_exists.mp hl, hf⟩⟩,
      fun h => ⟨h.there, h.asked, h.takes.ours, Option.isSome_iff_exists.mpr h.takes.there,
        h.takes.fits⟩⟩

end Sent

/-- The loads of some sends, one after another, and the rotation after them. -/
def manifest (count : String → Nat) : Nat → List Sent → List Freight × Nat
  | rotation, [] => ([], rotation)
  | rotation, x :: xs =>
    let (f, rotation) := x.assign count rotation
    let (fs, rotation) := manifest count rotation xs
    (f :: fs, rotation)

theorem manifest_append (count : String → Nat) (x : Sent) : ∀ (xs : List Sent) (rotation : Nat),
    manifest count rotation (xs ++ [x]) =
      ((manifest count rotation xs).1 ++ [(x.assign count (manifest count rotation xs).2).1],
        (x.assign count (manifest count rotation xs).2).2)
  | [], _ => rfl
  | y :: xs, rotation => by
    simp only [List.cons_append, manifest, manifest_append count x xs]

/-- Every send has a load. -/
theorem tickets_manifest (count : String → Nat) : ∀ (xs : List Sent) (rotation : Nat),
    (manifest count rotation xs).1.map (·.2.2) = xs.map (·.ticket)
  | [], _ => rfl
  | x :: xs, _ => congrArg (x.ticket :: ·) (tickets_manifest count xs _)

theorem topics_manifest (count : String → Nat) : ∀ (xs : List Sent) (rotation : Nat),
    (manifest count rotation xs).1.map (·.1.topic) = xs.map (·.draft.topic)
  | [], _ => rfl
  | x :: xs, rotation => congrArg₂ (· :: ·) (x.draft.assign_topic (count x.draft.topic) rotation)
      (topics_manifest count xs _)

variable {x : Sent} {b : Broker} {ours : String → Prop} {count count' : String → Nat}
  {rotation : Nat}

theorem Sent.assign_congr (h : count' x.draft.topic = count x.draft.topic) (rotation : Nat) :
    x.assign count' rotation = x.assign count rotation := by
  rw [assign, assign, h]

/-- Only the numbers of partitions of the topics of the sends matter. -/
theorem manifest_congr : ∀ {xs : List Sent} {rotation : Nat},
    (∀ x ∈ xs, count' x.draft.topic = count x.draft.topic) →
      manifest count' rotation xs = manifest count rotation xs
  | [], _, _ => rfl
  | x :: xs, rotation, h => by
    simp only [manifest, Sent.assign_congr (h x List.mem_cons_self),
      manifest_congr fun y hy => h y (List.mem_cons_of_mem _ hy)]

theorem Sent.Arrives.topic (h : x.Arrives ours b count rotation) : ours x.draft.topic := by
  have h := h.takes.ours
  rwa [assign, Draft.assign_topic] at h

namespace Session

variable {s : Session} {w : Worker}

/-- A session routes a send that arrives to its partition. -/
theorem route_of_arrives (h : x.Arrives ours b count s.rotation) :
    s.route x.draft (count x.draft.topic) =
      ({ s with rotation := (x.assign count s.rotation).2 },
        .ok (x.assign count s.rotation).1.1) := by
  unfold route Sent.assign Draft.assign
  rw [if_neg (Nat.ne_of_gt h.there)]
  cases hd : x.draft.partition with
  | some p =>
    obtain ⟨hlow, hhigh⟩ := h.asked p hd
    simp only
    rw [if_neg (by omega)]
  | none => cases x.draft.key <;> rfl

/-- A live worker has a message in its queue if there is room, or the session
waits for it. -/
theorem push_of_alive (hw : s.worker = some w) (hp : w.phase ≠ .stopped) (m : Message)
    (next : AfterPush) :
    (w.queue.length < s.config.queueCapacity ∧
      s.push m next = { s with worker := some (Stance.queue w m) }.pushed next) ∨
    (s.config.queueCapacity ≤ w.queue.length ∧
      s.push m next = ({ s with wait := .room m next }, [])) := by
  unfold push
  simp only [hw]
  split
  · rename_i hroom
    exact Or.inl ⟨hroom, rfl⟩
  · rename_i hfull
    exact Or.inr ⟨Nat.le_of_not_lt hfull, rfl⟩

/-! ### A session that knows the broker -/

/-- How many partitions a session takes a topic to have: as many as it was told,
or as it would be told by this broker. -/
def reckon (s : Session) (b : Broker) (topic : String) : Nat :=
  (s.shared.topics.get? topic).elim (b.breadth topic) List.length

/-- A session with this identity, without a terminal error, that takes our
topics to have so many partitions. -/
structure Steers (s : Session) (ours : String → Prop) (b : Broker) (count : String → Nat)
    (x : String) (id : Identity) : Prop where
  txid : s.config.txid = x
  identity : s.identity = some id
  fatal : s.shared.fatal = none
  reckons : ∀ topic, ours topic → s.reckon b topic = count topic

/-- A session about to queue a message: it has spread some records, and has
counted or learned, but nothing else. -/
structure Readies (s s₁ : Session) : Prop where
  config : s₁.config = s.config
  worker : s₁.worker = s.worker
  lifecycle : s₁.lifecycle = s.lifecycle
  inherited : s₁.inherited = s.inherited
  started : s₁.shared.started = s.shared.started

variable {id : Identity} {txid : String} {s' : Session}

theorem Steers.congr (h : s.Steers ours b count txid id) (hc : s'.config = s.config)
    (hi : s'.identity = s.identity) (hs : s'.shared = s.shared) :
    s'.Steers ours b count txid id where
  txid := hc ▸ h.txid
  identity := hi.trans h.identity
  fatal := hs ▸ h.fatal
  reckons := fun topic ht => by
    rw [reckon, hs]
    exact h.reckons topic ht

theorem Steers.learn (h : s.Steers ours b count txid id) {topic : String}
    {infos : List PartitionInfo} (hi : infos.length = count topic) :
    (s.learn topic infos).Steers ours b count txid id := by
  refine ⟨h.txid, h.identity, h.fatal, fun t ht => ?_⟩
  by_cases he : topic = t
  · subst he
    rw [reckon, Session.learn, Table.get?_put_self]
    exact hi
  · rw [reckon, Session.learn, Table.get?_put_of_ne _ he]
    exact h.reckons t ht

/-- A send that arrives is queued for its partition. -/
theorem Steers.enqueue (h : s.Steers ours b count txid id)
    (hx : x.Arrives ours b count s.rotation) :
    ∃ s₁, s₁.Steers ours b count txid id ∧ s.Readies s₁ ∧
      s₁.rotation = (x.assign count s.rotation).2 ∧
      (let (s', target) := s.route x.draft (count x.draft.topic)
       s'.enqueue x.draft x.ticket x.present target) =
        s₁.push (.send (x.pending count s.rotation)) .sent := by
  rw [route_of_arrives hx]
  let counters := { s.shared.counters with sent := s.shared.counters.sent + 1 }
  exact ⟨{ s with
      rotation := (x.assign count s.rotation).2
      shared := { s.shared with counters := counters } },
    ⟨h.txid, h.identity, h.fatal, h.reckons⟩, ⟨rfl, rfl, rfl, rfl, rfl⟩, rfl, rfl⟩

/-- A call to send: the session knows the topic, or asks for its partitions. -/
theorem Steers.send (h : s.Steers ours b count txid id)
    (hx : x.Arrives ours b count s.rotation) :
    (count x.draft.topic = b.breadth x.draft.topic ∧
      s.send x.draft x.ticket x.present = ({ s with wait := .routing x.draft x.ticket x.present },
        [.asked (.listing x.draft.topic)])) ∨
      ∃ s₁, s₁.Steers ours b count txid id ∧ s.Readies s₁ ∧
        s₁.rotation = (x.assign count s.rotation).2 ∧
        s.send x.draft x.ticket x.present =
          s₁.push (.send (x.pending count s.rotation)) .sent := by
  have hcount := h.reckons _ hx.topic
  rw [reckon] at hcount
  unfold Session.send
  cases hg : s.shared.topics.get? x.draft.topic with
  | none =>
    rw [hg] at hcount
    exact Or.inl ⟨hcount.symm, rfl⟩
  | some infos =>
    rw [hg] at hcount
    replace hcount : infos.length = count x.draft.topic := hcount
    simp only [hcount]
    exact Or.inr (h.enqueue hx)

/-- The partitions of the topic are heard of. -/
theorem Steers.routed (h : s.Steers ours b count txid id) (hx : x.Arrives ours b count s.rotation)
    (hw : s.wait = .routing x.draft x.ticket x.present) {infos : List PartitionInfo}
    (hi : infos.length = count x.draft.topic) :
    ∃ s₁, s₁.Steers ours b count txid id ∧ s.Readies s₁ ∧
      s₁.rotation = (x.assign count s.rotation).2 ∧
      s.answered (.ok (.partitions infos)) =
        s₁.push (.send (x.pending count s.rotation)) .sent := by
  obtain ⟨s₁, hs₁, hr, hrot, he⟩ := (h.learn hi).enqueue hx
  refine ⟨s₁, hs₁, ⟨hr.config, hr.worker, hr.lifecycle, hr.inherited, hr.started⟩, hrot, ?_⟩
  refine Eq.trans ?_ he
  simp only [Session.answered, hw, hi]

/-- The end of a flush before a commit: the broker is asked if it may know of
the transaction. -/
theorem Steers.finishFlushed (h : s.Steers ours b count txid id) : s.finishFlushed .commit =
    if s.inherited || s.shared.started then
      ({ s with lifecycle := .committing, wait := .finish .commit .inTransaction },
        [.asked (.finish txid id .commit)])
    else s.conclude .commit := by
  unfold Session.finishFlushed askFinish
  simp only [h.fatal, h.identity, h.txid]
  rfl

end Session
end FencedLog
