/-
# How records without a key are spread

A record without partition and key goes to the next partition in turn, and one
rotation serves all topics of a session. So the `i`-th such record goes to
partition `i` modulo the number of its topic's partitions, whatever is sent
besides; and of records that follow one another to one topic every partition gets
its share (`Session.spreads_in_rotation`).

Records for another topic in between turn the rotation too. If they alternate,
the partitions of a topic are not taken in turn (`Session.lopsided`).

Key definitions: `Routed.isSpread`, `Routed.turn`, `Routed.GoesTo`, `Cycles`.
Key theorems: `Cycles.share`, `Session.rotation_step`, `Session.spread_run`,
`Session.spreads_in_rotation`.
-/
import Mathlib.Data.Int.CardIntervalMod
import FencedLog.Proofs.Session.Once
import FencedLog.Proofs.Session.Routing

namespace FencedLog

namespace Routed

/-- It has neither a partition nor a key, and its topic has partitions. -/
def isSpread (x : Routed) : Bool :=
  x.draft.partition.isNone && x.draft.key.isNone && x.count.any (0 < ·)

/-- The rotation after it. -/
def turn (x : Routed) (rotation : Nat) : Nat :=
  if x.isSpread then (rotation + 1) % Text.wordLimit else rotation

/-- It goes where this rotation points to. -/
def GoesTo (x : Routed) (rotation : Nat) : Prop :=
  ∃ n, 0 < n ∧ x.count = some n ∧ x.target = .ok ⟨x.draft.topic, (rotation % n : Nat)⟩

end Routed

/-! ### Shares -/

/-- The records go to the `n` partitions of the topic in turn, from this one on. -/
def Cycles (xs : List Routed) (topic : String) (n c : Nat) : Prop :=
  ∀ (i : Nat) (x : Routed), xs[i]? = some x → x.target = .ok ⟨topic, ((c + i) % n : Nat)⟩

theorem turn_modEq {c i n p : Nat} (hp : p < n) :
    (c + i) % n = p ↔ i ≡ p + (n - c % n) [MOD n] := by
  have hround : c + (n - c % n) ≡ 0 [MOD n] := by
    have hlt := Nat.mod_lt c (Nat.zero_lt_of_lt hp)
    calc c + (n - c % n) ≡ c % n + (n - c % n) [MOD n] := ((Nat.mod_modEq c n).symm).add_right _
      _ = n := by omega
      _ ≡ 0 [MOD n] := by simp [Nat.ModEq]
  constructor
  · intro h
    have h' : c + i ≡ p [MOD n] := by rw [Nat.ModEq, h, Nat.mod_eq_of_lt hp]
    calc i = 0 + i := (Nat.zero_add i).symm
      _ ≡ c + (n - c % n) + i [MOD n] := hround.symm.add_right i
      _ = c + i + (n - c % n) := by omega
      _ ≡ p + (n - c % n) [MOD n] := h'.add_right _
  · intro h
    have h' : c + i ≡ p [MOD n] := by
      calc c + i ≡ c + (p + (n - c % n)) [MOD n] := h.add_left c
        _ = c + (n - c % n) + p := by omega
        _ ≡ 0 + p [MOD n] := hround.add_right p
        _ = p := Nat.zero_add p
    rw [h', Nat.mod_eq_of_lt hp]

/-- **Every partition gets its share**: as many records as any other, or one more. -/
theorem Cycles.share {topic : String} {c n p : Nat} {xs : List Routed} (h : Cycles xs topic n c)
    (hp : p < n) :
    xs.countP (·.target = .ok ⟨topic, p⟩) = xs.length / n ∨
      xs.countP (·.target = .ok ⟨topic, p⟩) = xs.length / n + 1 := by
  have hcount : xs.countP (·.target = .ok ⟨topic, p⟩) =
      xs.length.count (· ≡ p + (n - c % n) [MOD n]) := by
    induction xs using List.reverseRecOn with
    | nil => rfl
    | append_singleton xs x ih =>
      have hx := h xs.length x (by simp)
      have hfront : Cycles xs topic n c := fun i y hy => h i y <| by
        rw [List.getElem?_append_left (List.getElem?_eq_some_iff.mp hy).1, hy]
      rw [List.countP_append, List.length_append, List.length_singleton, Nat.count_succ, ih hfront]
      simp only [List.countP_singleton, hx, Except.ok.injEq, TopicPartition.mk.injEq, true_and,
        Nat.cast_inj, turn_modEq hp, decide_eq_true_eq]
  rw [hcount, Nat.count_modEq_card _ (Nat.zero_lt_of_lt hp)]
  split
  · exact Or.inr rfl
  · exact Or.inl rfl

namespace Session

variable {s s₁ : Session} {e : Event} {x : Routed}

/-! ### The rotation -/

theorem rotation_direct (s : Session) (draft : Draft) (ticket : Ticket) (present : Int)
    (count : Nat) : (s.direct draft ticket present count).1.rotation =
      (s.direct draft ticket present count).2.turn s.rotation := by
  unfold direct route Routed.turn Routed.isSpread
  rcases Nat.eq_zero_or_pos count with rfl | hpos
  · simp
  · rw [if_neg (Nat.ne_of_gt hpos)]
    cases hp : draft.partition with
    | some p =>
      simp only
      split <;> simp
    | none => cases draft.key <;> simp [hpos]

theorem goesTo_direct {draft : Draft} {ticket : Ticket} {present : Int} {count : Nat}
    (h : (s.direct draft ticket present count).2.isSpread = true) :
    (s.direct draft ticket present count).2.GoesTo s.rotation := by
  simp only [direct, Routed.isSpread, Bool.and_eq_true, Option.isNone_iff_eq_none, Option.any_some,
    decide_eq_true_eq] at h
  obtain ⟨⟨hp, hk⟩, hpos⟩ := h
  refine ⟨count, hpos, rfl, ?_⟩
  simp only [direct, route, if_neg (Nat.ne_of_gt hpos), hp, hk]

/-- What is spread goes where the rotation points to, and turns it. -/
theorem rotation_routes (h : s.routes e = some (s₁, x)) : s₁.rotation = x.turn s.rotation ∧
    (x.isSpread = true → x.GoesTo s.rotation) := by
  cases routes_cases h with
  | known draft ticket present infos =>
    exact ⟨rotation_direct s draft ticket present infos.length, goesTo_direct⟩
  | told draft ticket present infos =>
    exact ⟨rotation_direct (s.learn draft.topic infos) draft ticket present infos.length,
      goesTo_direct⟩
  | refused draft ticket present err =>
    have hno : (s.unlisted draft ticket present err).isSpread = false := by
      simp [unlisted, Routed.isSpread]
    rw [Routed.turn, hno]
    exact ⟨rfl, fun hx => nomatch hx⟩

/-- **Nothing else turns the rotation.** -/
theorem rotation_step (s : Session) (e : Event) : (s.step e).1.rotation =
    (s.routes e).elim s.rotation (·.2.turn s.rotation) := by
  cases course_step s e with
  | onward hn hup => rw [hn, hup.rotation, Option.elim]
  | learned asked told hn _ _ hup =>
    rw [hn, hup.rotation, Option.elim]
    rfl
  | routed s₁ x hx hup => rw [hx, hup.rotation, (rotation_routes hx).1, Option.elim]
  | moved hn hslim _ => rw [hn, hslim.rotation, Option.elim]

/-- The records of a run that are spread. -/
def spread (s : Session) (es : List Event) : List Routed := (s.itinerary es).filter (·.isSpread)

/-- **The records that are spread follow the rotation**, one after the other. -/
theorem spread_run : ∀ (es : List Event) {s : Session},
    s.rotation + (s.spread es).length < Text.wordLimit →
      ∀ (i : Nat) (x : Routed), (s.spread es)[i]? = some x → x.GoesTo (s.rotation + i)
  | [], _, _, _, _, hx => by simp [spread, itinerary] at hx
  | e :: es, s, hlen, i, x, hx => by
    have hstep := rotation_step s e
    cases hr : s.routes e with
    | none =>
      have hsame : s.spread (e :: es) = (s.step e).1.spread es := by
        rw [spread, itinerary, hr]
        rfl
      rw [hr, Option.elim] at hstep
      rw [hsame] at hlen hx
      rw [← hstep] at hlen ⊢
      exact spread_run es hlen i x hx
    | some r =>
      obtain ⟨s₁, y⟩ := r
      rw [hr, Option.elim, Routed.turn] at hstep
      have hcons : s.spread (e :: es) = [y].filter (·.isSpread) ++ (s.step e).1.spread es := by
        rw [spread, itinerary, hr, List.filter_append]
        rfl
      rw [hcons] at hlen hx
      by_cases hy : y.isSpread = true
      · simp only [List.filter_singleton, hy, cond_true, List.singleton_append,
          List.length_cons] at hlen hx
        have hnext : (s.step e).1.rotation = s.rotation + 1 := by
          rw [hstep, if_pos hy]
          exact Nat.mod_eq_of_lt (by omega)
        cases i with
        | zero =>
          obtain rfl : y = x := by simpa using hx
          exact (rotation_routes hr).2 hy
        | succ i =>
          have h := spread_run es (s := (s.step e).1) (by omega) i x (by simpa using hx)
          rwa [hnext, Nat.add_assoc, Nat.add_comm 1 i] at h
      · simp only [List.filter_singleton, Bool.not_eq_true] at hy hlen hx
        simp only [hy, cond_false, List.nil_append] at hlen hx
        rw [hy, if_neg (by simp)] at hstep
        rw [← hstep] at hlen ⊢
        exact spread_run es hlen i x hx

/-- Records that are spread one after the other to one topic go to its partitions
in turn. -/
theorem cycles_of_spread {es : List Event} {before block after : List Routed} {topic : String}
    {n : Nat} (h : ∀ (i : Nat) (x : Routed), (s.spread es)[i]? = some x → x.GoesTo i)
    (hs : s.spread es = before ++ block ++ after)
    (hb : ∀ x ∈ block, x.draft.topic = topic ∧ x.count = some n) :
    Cycles block topic n before.length := by
  intro i x hx
  have hlt := (List.getElem?_eq_some_iff.mp hx).1
  have hpos : (s.spread es)[before.length + i]? = some x := by
    rw [hs, List.append_assoc, List.getElem?_append_right (Nat.le_add_right _ _),
      Nat.add_sub_cancel_left, List.getElem?_append_left hlt, hx]
  obtain ⟨n', -, hn, ht⟩ := h _ x hpos
  obtain ⟨htopic, hcount⟩ := hb x (List.mem_of_getElem? hx)
  rw [hcount] at hn
  rw [ht, htopic, Option.some.inj hn]

/-- **The records without partition and key follow one rotation.** Of all of them
that a session routes, to whatever topics, the `i`-th goes to partition `i` modulo
the number of its topic's partitions. So those that follow one another to a topic
with `n` partitions go to its partitions in turn, and every partition gets its
share of them. -/
theorem spreads_in_rotation {config : SessionConfig} {connected : Bool} {s : Session}
    (h : build config connected = .ok s) (es : List Event) :
    (∀ fs e gs, es = fs ++ e :: gs → match (s.run fs).1.routes e with
      | some (s₁, x) => (s.run fs).1.step e = s₁.enqueue x.draft x.ticket x.present x.target
      | none => ((s.run fs).1.step e).1.onHand ⊆ (s.run fs).1.onHand) ∧
    ((s.spread es).length < Text.wordLimit →
      (∀ (i : Nat) (x : Routed), (s.spread es)[i]? = some x → x.GoesTo i) ∧
      ∀ before block after topic n, s.spread es = before ++ block ++ after →
        (∀ x ∈ block, x.draft.topic = topic ∧ x.count = some n) →
        Cycles block topic n before.length ∧
          ∀ p < n, block.countP (·.target = .ok ⟨topic, p⟩) = block.length / n ∨
            block.countP (·.target = .ok ⟨topic, p⟩) = block.length / n + 1) := by
  refine ⟨fun fs e _ _ => queues_routed (s.run fs).1 e, fun hlen => ?_⟩
  have hzero : s.rotation = 0 := by
    unfold build at h
    split at h
    · cases h
    · split at h <;> cases h
      rfl
  have hrun : ∀ (i : Nat) (x : Routed), (s.spread es)[i]? = some x → x.GoesTo i := by
    intro i x hx
    have hgoes := spread_run es (by omega) i x hx
    rwa [hzero, Nat.zero_add] at hgoes
  refine ⟨hrun, fun before block after topic n hs hb => ?_⟩
  have hcycles := cycles_of_spread hrun hs hb
  exact ⟨hcycles, fun p hp => hcycles.share hp⟩

/-- Two topics get records by turns, and then one of them gets more. "T" has two
partitions and "U" has one. -/
def alternately : List Event := [
  .called .init, .answered (.ok (.identity ⟨1000, 0⟩)), .called .begin, .round 1,
  .called (.send ⟨"T", none, none, ⟨#[0]⟩, some 1⟩ ⟨0, .callback⟩ 0),
  .answered (.ok (.partitions [⟨"T", 0, none⟩, ⟨"T", 1, none⟩])),
  .called (.send ⟨"U", none, none, ⟨#[1]⟩, some 2⟩ ⟨1, .callback⟩ 0),
  .answered (.ok (.partitions [⟨"U", 0, none⟩])),
  .called (.send ⟨"T", none, none, ⟨#[2]⟩, some 3⟩ ⟨2, .callback⟩ 0),
  .called (.send ⟨"U", none, none, ⟨#[3]⟩, some 4⟩ ⟨3, .callback⟩ 0),
  .called (.send ⟨"T", none, none, ⟨#[4]⟩, some 5⟩ ⟨4, .callback⟩ 0),
  .called (.send ⟨"T", none, some ⟨#[7]⟩, ⟨#[5]⟩, some 6⟩ ⟨5, .callback⟩ 0),
  .called (.send ⟨"T", none, none, ⟨#[6]⟩, some 7⟩ ⟨6, .callback⟩ 0),
  .called (.send ⟨"T", none, none, ⟨#[7]⟩, some 8⟩ ⟨7, .callback⟩ 0)]

/-- The last three that are spread go to the partitions of "T" in turn. -/
theorem spreads_in_rotation_alternately :
    let xs := (fresh Scene.settings).spread alternately
    build Scene.settings true = .ok (fresh Scene.settings) ∧ xs.length < Text.wordLimit ∧
    xs.map (·.draft.topic) = ["T", "U", "T", "U", "T", "T", "T"] ∧
    (∀ x ∈ xs.drop 4, x.draft.topic = "T" ∧ x.count = some 2) ∧
    Cycles (xs.drop 4) "T" 2 4 ∧
    (xs.drop 4).map (·.target) = [.ok ⟨"T", 0⟩, .ok ⟨"T", 1⟩, .ok ⟨"T", 0⟩] := by
  have hlen : ((fresh Scene.settings).spread alternately).length < Text.wordLimit := by
    decide +kernel
  have hblock : ∀ x ∈ ((fresh Scene.settings).spread alternately).drop 4,
      x.draft.topic = "T" ∧ x.count = some 2 := by decide +kernel
  have hsplit : (fresh Scene.settings).spread alternately =
      ((fresh Scene.settings).spread alternately).take 4 ++
        ((fresh Scene.settings).spread alternately).drop 4 ++ [] := by
    rw [List.append_nil, List.take_append_drop]
  refine ⟨build_settings, hlen, by decide +kernel, hblock, ?_, by decide +kernel⟩
  exact (((spreads_in_rotation build_settings alternately).2 hlen).2 _ _ _ _ _ hsplit hblock).1

/-- **Of all records of "T" that are spread, one partition gets four and the other
gets one**, though "T" has two partitions all along. -/
theorem lopsided :
    let xs := ((fresh Scene.settings).spread alternately).filter (·.draft.topic = "T")
    (∀ x ∈ (fresh Scene.settings).itinerary alternately, x.draft.topic = "T" → x.count = some 2) ∧
    xs.countP (·.target = .ok ⟨"T", 0⟩) = 4 ∧ xs.countP (·.target = .ok ⟨"T", 1⟩) = 1 ∧
    ∀ c, ¬ Cycles xs "T" 2 c := by
  refine ⟨by decide +kernel, by decide +kernel, by decide +kernel, fun c h => ?_⟩
  have hfirst : (.ok ⟨"T", 0⟩ : Except DeliveryError TopicPartition) =
      .ok ⟨"T", ((c + 0) % 2 : Nat)⟩ := h 0 _ rfl
  have hsecond : (.ok ⟨"T", 0⟩ : Except DeliveryError TopicPartition) =
      .ok ⟨"T", ((c + 1) % 2 : Nat)⟩ := h 1 _ rfl
  simp only [Except.ok.injEq, TopicPartition.mk.injEq, true_and] at hfirst hsecond
  omega

end Session
end FencedLog
