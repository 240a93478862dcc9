/-
# Batches hold what was pushed

Between two drains, batches take up pushes. Those of a partition hold, one after
the other, what was pushed for it; each but the last is full; and each was begun
by one push and holds what was pushed for its partition from there on, as far as
it has room (`Batches.BegunAt`). The batches stand in the order of the pushes that
began them, and the partitions in the order in which they first came.

A batch that has room is the last of its partition. So whoever remembers where the
last batch of each partition stands need not look for it: it makes the same batches
(`Batches.Index`).

Key definitions: `Batches.own`, `Batches.BegunAt`, `Batches.Gathers`,
`Batches.Step`, `Batches.since`, `Batches.Index`.
Key theorems: `Batches.place_cases`, `Batches.Gathers.push`,
`Batches.pairwise_distinct`, `Batches.Index.Tracks.push`, `Batches.gathered`.
-/
import Mathlib.Data.List.Forall2
import Mathlib.Data.List.Induction
import FencedLog.Proofs.Delivery.Lanes
import FencedLog.Proofs.Delivery.Register
import FencedLog.Proofs.Keys

namespace FencedLog
namespace Batches

variable {α : Type} {limit m i : Nat} {p q : TopicPartition} {x : α} {b : Batch α}
  {bs : List (Batch α)} {xs : List (TopicPartition × α)}

/-! ### Where an item goes -/

/-- An item begins a batch when all those of its partition are full, or joins the
last one of its partition. -/
theorem place_cases (x : α) : ∀ {bs : List (Batch α)}, Packed limit bs →
    ((∀ b ∈ bs, b.partition = p → limit ≤ b.items.length) ∧
      place limit p x bs = bs ++ [⟨p, [x]⟩]) ∨
    ∃ before b after, bs = before ++ b :: after ∧ b.partition = p ∧ b.items.length < limit ∧
      (∀ c ∈ after, c.partition ≠ p) ∧
      place limit p x bs = before ++ { b with items := b.items ++ [x] } :: after
  | [], _ => Or.inl ⟨by simp, rfl⟩
  | b :: bs, h => by
    rw [place]
    split
    · rename_i hb
      exact Or.inr ⟨[], b, bs, rfl, hb.1, hb.2, hb.1 ▸ h.1 hb.2, rfl⟩
    · rename_i hno
      rcases place_cases x h.2 with ⟨hfull, he⟩ | ⟨before, c, after, rfl, hc, hroom, hback, he⟩
      · refine Or.inl ⟨fun c hc hp => ?_, by rw [he]; rfl⟩
        rcases List.mem_cons.mp hc with rfl | hc
        · exact Nat.le_of_not_lt fun hroom => hno ⟨hp, hroom⟩
        · exact hfull c hc hp
      · exact Or.inr ⟨b :: before, c, after, rfl, hc, hroom, hback, by rw [he]; rfl⟩

/-- Every batch but the last of its partition is full. -/
theorem Packed.full : ∀ {before after : List (Batch α)}, Packed limit (before ++ b :: after) →
    (∃ c ∈ after, c.partition = b.partition) → limit ≤ b.items.length
  | [], _, h, ⟨c, hc, hp⟩ => Nat.le_of_not_lt fun hroom => h.1 hroom c hc hp
  | _ :: before, after, h, hlast => by
    have hrest : Packed limit (before ++ b :: after) := h.2
    exact hrest.full hlast

/-! ### What batches hold -/

/-- The items of one partition, in order. -/
def own (p : TopicPartition) (xs : List (TopicPartition × α)) : List α :=
  (xs.filter (·.1 = p)).map (·.2)

theorem own_append (q : TopicPartition) (xs ys : List (TopicPartition × α)) :
    own q (xs ++ ys) = own q xs ++ own q ys := by
  simp [own]

theorem own_self (p : TopicPartition) (x : α) : own p [(p, x)] = [x] := by
  simp [own]

theorem own_of_ne (h : p ≠ q) (x : α) : own q [(p, x)] = [] := by
  simp [own, h]

/-- The push at place `i` began the batch: it holds what was pushed for its
partition from there on, as far as it has room. -/
def BegunAt (m : Nat) (xs : List (TopicPartition × α)) (i : Nat) (b : Batch α) : Prop :=
  (xs[i]?).map Prod.fst = some b.partition ∧ b.items = (own b.partition (xs.drop i)).take m

theorem BegunAt.lt (h : BegunAt m xs i b) : i < xs.length := by
  obtain ⟨x, hx, -⟩ := Option.map_eq_some_iff.mp h.1
  exact (List.getElem?_eq_some_iff.mp hx).1

/-- What one more push is to the rest of the pushes from place `i` on. -/
theorem BegunAt.own_drop (h : BegunAt m xs i b) (p : TopicPartition) (x : α) :
    own b.partition ((xs ++ [(p, x)]).drop i) =
      own b.partition (xs.drop i) ++ own b.partition [(p, x)] := by
  rw [List.drop_append_of_le_length (Nat.le_of_lt h.lt), own_append]

theorem BegunAt.head_append (h : BegunAt m xs i b) (p : TopicPartition) (x : α) :
    ((xs ++ [(p, x)])[i]?).map Prod.fst = some b.partition := by
  rw [List.getElem?_append_left h.lt]
  exact h.1

/-- A push for another partition, or for a batch that is full, leaves the batch as
it is. -/
theorem BegunAt.aside (h : BegunAt m xs i b) (hb : b.partition = p → m ≤ b.items.length) :
    BegunAt m (xs ++ [(p, x)]) i b := by
  refine ⟨h.head_append p x, ?_⟩
  rw [h.own_drop p x]
  by_cases hp : b.partition = p
  · have hlen : m ≤ (own b.partition (xs.drop i)).length := by
      have := hb hp
      rw [h.2, List.length_take] at this
      omega
    rw [List.take_append_of_le_length hlen]
    exact h.2
  · rw [own_of_ne (Ne.symm hp), List.append_nil]
    exact h.2

/-- A batch that has room holds all that was pushed for its partition since it was
begun, and takes the next item. -/
theorem BegunAt.join (h : BegunAt m xs i b) (hp : b.partition = p) (hroom : b.items.length < m) :
    BegunAt m (xs ++ [(p, x)]) i { b with items := b.items ++ [x] } := by
  have hlen : (own b.partition (xs.drop i)).length < m := by
    rw [h.2, List.length_take] at hroom
    omega
  have hall : b.items = own b.partition (xs.drop i) := by
    rw [h.2, List.take_of_length_le (Nat.le_of_lt hlen)]
  refine ⟨h.head_append p x, ?_⟩
  show b.items ++ [x] = (own b.partition ((xs ++ [(p, x)]).drop i)).take m
  rw [h.own_drop p x, ← hp, own_self, ← hall, List.take_of_length_le]
  rw [List.length_append, List.length_singleton]
  exact hroom

theorem begunAt_last (hm : 1 ≤ m) (xs : List (TopicPartition × α)) (p : TopicPartition) (x : α) :
    BegunAt m (xs ++ [(p, x)]) xs.length ⟨p, [x]⟩ := by
  refine ⟨by simp, ?_⟩
  show [x] = (own p ((xs ++ [(p, x)]).drop xs.length)).take m
  rw [List.drop_left, own_self, List.take_of_length_le]
  exact hm

/-- Batches of at most `m` items have taken up these pushes. -/
structure Gathers (m : Nat) (xs : List (TopicPartition × α)) (bs : List (Batch α)) : Prop where
  /-- The batches of a partition hold, one after the other, what was pushed for it. -/
  items : ∀ p, (bs.filter (·.partition = p)).flatMap (·.items) = own p xs
  sizes : ∀ b ∈ bs, 1 ≤ b.items.length ∧ b.items.length ≤ m
  /-- Every batch but the last of its partition is full. -/
  full : ∀ before b after, bs = before ++ b :: after →
    (∃ c ∈ after, c.partition = b.partition) → b.items.length = m
  /-- They stand in the order of the pushes that began them. -/
  order : ∃ places : List Nat, places.Pairwise (· < ·) ∧ List.Forall₂ (BegunAt m xs) places bs

theorem items_place_of (h : Packed limit bs)
    (hi : ∀ q, (bs.filter (·.partition = q)).flatMap (·.items) = own q xs) (q : TopicPartition) :
    ((place limit p x bs).filter (·.partition = q)).flatMap (·.items) = own q (xs ++ [(p, x)]) := by
  rw [own_append, ← hi q]
  rcases place_cases (p := p) x h with ⟨-, he⟩ | ⟨before, b, after, rfl, hb, -, hback, he⟩
  · rw [he]
    by_cases hp : p = q
    · subst hp
      simp [own_self]
    · simp [own_of_ne hp, hp]
  · rw [he]
    by_cases hp : p = q
    · -- the batch is the last one of its partition
      subst hp
      have hnone : after.filter (·.partition = p) = [] :=
        List.filter_eq_nil_iff.mpr fun c hc => by simpa using hback c hc
      simp [own_self, hb, hnone]
    · have hq : b.partition ≠ q := hb ▸ hp
      simp [own_of_ne hp, hq]

theorem sizes_place (hm : 1 ≤ limit) (h : Packed limit bs)
    (hs : ∀ b ∈ bs, 1 ≤ b.items.length ∧ b.items.length ≤ limit) :
    ∀ b ∈ place limit p x bs, 1 ≤ b.items.length ∧ b.items.length ≤ limit := by
  intro b hb
  rcases place_cases (p := p) x h with ⟨-, he⟩ | ⟨before, c, after, rfl, -, hroom, -, he⟩
  · rw [he] at hb
    rcases List.mem_append.mp hb with hb | hb
    · exact hs b hb
    · rw [List.mem_singleton.mp hb]
      exact ⟨Nat.le_refl 1, hm⟩
  · rw [he] at hb
    rcases List.mem_append.mp hb with hb | hb
    · exact hs b (List.mem_append_left _ hb)
    · rcases List.mem_cons.mp hb with rfl | hb
      · simp only [List.length_append, List.length_singleton]
        omega
      · exact hs b (List.mem_append_right _ (List.mem_cons_of_mem c hb))

/-- Batches of other partitions were begun where they were. -/
theorem begun_aside : ∀ {places : List Nat} {bs : List (Batch α)}, (∀ b ∈ bs, b.partition ≠ p) →
    List.Forall₂ (BegunAt m xs) places bs → List.Forall₂ (BegunAt m (xs ++ [(p, x)])) places bs
  | _, _, _, .nil => .nil
  | _, _, hne, .cons hb hrest => .cons (hb.aside fun hp => absurd hp (hne _ List.mem_cons_self))
      (begun_aside (fun b hb => hne b (List.mem_cons_of_mem _ hb)) hrest)

/-- Where the item goes, the batch was begun before or is begun now. -/
theorem begun_place (hm : 1 ≤ m) {places : List Nat} (hp : Packed m bs)
    (h : List.Forall₂ (BegunAt m xs) places bs) :
    List.Forall₂ (BegunAt m (xs ++ [(p, x)])) places (place m p x bs) ∨
      List.Forall₂ (BegunAt m (xs ++ [(p, x)])) (places ++ [xs.length]) (place m p x bs) := by
  induction h with
  | nil => exact Or.inr (.cons (begunAt_last hm xs p x) .nil)
  | cons hb hrest ih =>
    rw [place]
    split
    · rename_i hin
      exact Or.inl (.cons (hb.join hin.1 hin.2) (begun_aside (hin.1 ▸ hp.1 hin.2) hrest))
    · rename_i hno
      have hhead := hb.aside (x := x) fun hp => Nat.le_of_not_lt fun hroom => hno ⟨hp, hroom⟩
      exact (ih hp.2).imp (.cons hhead) (.cons hhead)

theorem lt_of_begun : ∀ {places : List Nat} {bs : List (Batch α)},
    List.Forall₂ (BegunAt m xs) places bs → ∀ i ∈ places, i < xs.length
  | _, _, .cons hb hrest, i, hi => by
    rcases List.mem_cons.mp hi with rfl | hi
    · exact hb.lt
    · exact lt_of_begun hrest i hi

/-- **One more push is gathered.** -/
theorem Gathers.push (hm : 1 ≤ m) (hp : Packed m bs) (h : Gathers m xs bs) (p : TopicPartition)
    (x : α) : Gathers m (xs ++ [(p, x)]) (place m p x bs) where
  items := items_place_of hp h.items
  sizes := sizes_place hm hp h.sizes
  full := fun before b after he hlast => by
    have hle := (sizes_place (p := p) (x := x) hm hp h.sizes b (by simp [he])).2
    have hpacked : Packed m (place m p x bs) := packed_place hp
    rw [he] at hpacked
    have hge := hpacked.full hlast
    omega
  order := by
    obtain ⟨places, hpairwise, hbegun⟩ := h.order
    rcases begun_place (p := p) (x := x) hm hp hbegun with hnow | hnow
    · exact ⟨places, hpairwise, hnow⟩
    · refine ⟨places ++ [xs.length], ?_, hnow⟩
      rw [List.pairwise_append]
      exact ⟨hpairwise, List.pairwise_singleton _ _, fun i hi j hj =>
        List.mem_singleton.mp hj ▸ lt_of_begun hbegun i hi⟩

/-! ### Partitions -/

theorem distinct_concat (p : TopicPartition) : ∀ ps seen : List TopicPartition,
    distinct seen (ps ++ [p]) =
      if p ∈ seen ∨ p ∈ ps then distinct seen ps else distinct seen ps ++ [p]
  | [], seen => by simp [distinct]
  | q :: ps, seen => by
    simp only [List.cons_append, distinct, List.contains_iff_mem]
    by_cases hq : q ∈ seen
    · rw [if_pos hq, if_pos hq, distinct_concat p ps seen]
      have hiff : p ∈ seen ∨ p ∈ q :: ps ↔ p ∈ seen ∨ p ∈ ps := by
        rw [List.mem_cons]
        constructor
        · rintro (h | rfl | h)
          exacts [Or.inl h, Or.inl hq, Or.inr h]
        · exact Or.imp_right Or.inr
      simp only [hiff]
    · rw [if_neg hq, if_neg hq, distinct_concat p ps (q :: seen)]
      have hiff : p ∈ q :: seen ∨ p ∈ ps ↔ p ∈ seen ∨ p ∈ q :: ps := by
        simp only [List.mem_cons]
        tauto
      simp only [hiff]
      split <;> rfl

theorem mem_distinct_iff (p : TopicPartition) (ps : List TopicPartition) :
    p ∈ distinct [] ps ↔ p ∈ ps :=
  ⟨fun h => distinct_subset ps [] h,
    fun h => (mem_distinct ps [] h).resolve_left List.not_mem_nil⟩

/-- The members stand in the order in which they first came. -/
theorem pairwise_distinct (ps : List TopicPartition) :
    (distinct [] ps).Pairwise fun p q => ps.idxOf p < ps.idxOf q := by
  induction ps using List.reverseRecOn with
  | nil => exact List.Pairwise.nil
  | append_singleton ps r ih =>
    have hold : (distinct [] ps).Pairwise fun p q => (ps ++ [r]).idxOf p < (ps ++ [r]).idxOf q := by
      refine ih.imp_of_mem fun {p q} hp hq hlt => ?_
      rw [List.idxOf_append_of_mem ((mem_distinct_iff p ps).mp hp),
        List.idxOf_append_of_mem ((mem_distinct_iff q ps).mp hq)]
      exact hlt
    rw [distinct_concat]
    split
    · exact hold
    · rename_i hr
      replace hr : r ∉ ps := fun h => hr (Or.inr h)
      refine List.pairwise_append.mpr ⟨hold, List.pairwise_singleton _ _, fun p hp q hq => ?_⟩
      have hmem := (mem_distinct_iff p ps).mp hp
      rw [List.mem_singleton.mp hq, List.idxOf_append_of_mem hmem, List.idxOf_append_of_notMem hr]
      exact Nat.lt_of_lt_of_le (List.idxOf_lt_length_of_mem hmem) (Nat.le_add_right _ _)

theorem map_partition_place (h : Packed limit bs) :
    (place limit p x bs).map (·.partition) = bs.map (·.partition) ∧
        p ∈ bs.map (·.partition) ∨
      (place limit p x bs).map (·.partition) = bs.map (·.partition) ++ [p] := by
  rcases place_cases (p := p) x h with ⟨-, he⟩ | ⟨before, b, after, rfl, rfl, -, -, he⟩
  · exact Or.inr (by simp [he])
  · exact Or.inl (by simp [he])

/-- The partitions of the batches are those of the pushes, in the same order. -/
theorem distinct_place (h : Packed limit bs)
    (hd : distinct [] (bs.map (·.partition)) = distinct [] (xs.map Prod.fst)) :
    distinct [] ((place limit p x bs).map (·.partition)) =
      distinct [] ((xs ++ [(p, x)]).map Prod.fst) := by
  have hsame : p ∈ bs.map (·.partition) ↔ p ∈ xs.map Prod.fst := by
    rw [← mem_distinct_iff, hd, mem_distinct_iff]
  rw [List.map_append, List.map_cons, List.map_nil, distinct_concat, ← hd]
  rcases map_partition_place (p := p) (x := x) h with ⟨he, hin⟩ | he
  · rw [he, if_pos (Or.inr (hsame.mp hin))]
  · rw [he, distinct_concat]
    simp only [hsame]

/-! ### Pushes and drains -/

/-- What is done to batches. -/
inductive Step (α : Type) where
  | push (p : TopicPartition) (item : α)
  | drain

def step (s : Batches α) : Step α → Batches α
  | .push p item => s.push p item
  | .drain => s.drain.2

def run (s : Batches α) (steps : List (Step α)) : Batches α := steps.foldl step s

/-- The pushes since the last drain, if these came before. -/
def sinceFrom (xs : List (TopicPartition × α)) : List (Step α) → List (TopicPartition × α)
  | [] => xs
  | .push p item :: steps => sinceFrom (xs ++ [(p, item)]) steps
  | .drain :: steps => sinceFrom [] steps

/-- The pushes since the last drain. -/
def since (steps : List (Step α)) : List (TopicPartition × α) := sinceFrom [] steps

/-- The state of batches that have taken up these pushes. -/
structure Holds (limit : Nat) (xs : List (TopicPartition × α)) (s : Batches α) : Prop where
  limit : s.limit = max limit 1
  packed : Packed s.limit s.batches
  gathers : Gathers s.limit xs s.batches
  partitions : s.partitions = distinct [] (xs.map Prod.fst)
  size : s.size = xs.length

variable {s : Batches α}

theorem holds_empty (limit : Nat) : Holds limit [] (empty limit : Batches α) where
  limit := rfl
  packed := trivial
  gathers := ⟨fun _ => rfl, by simp [empty], by simp [empty], [], List.Pairwise.nil, .nil⟩
  partitions := rfl
  size := rfl

theorem Holds.push (h : Holds limit xs s) (p : TopicPartition) (x : α) :
    Holds limit (xs ++ [(p, x)]) (s.push p x) where
  limit := h.limit
  packed := packed_place h.packed
  gathers := h.gathers.push (h.limit ▸ Nat.le_max_right limit 1) h.packed p x
  partitions := distinct_place h.packed h.partitions
  size := by rw [size_push, h.size, List.length_append, List.length_singleton]

theorem Holds.drain (h : Holds limit xs s) : s.drain.2 = empty limit := by
  rw [Batches.drain, empty, ← h.limit]

theorem Holds.run : ∀ (steps : List (Step α)) {s : Batches α} {xs : List (TopicPartition × α)},
    Holds limit xs s → Holds limit (sinceFrom xs steps) (s.run steps)
  | [], _, _, h => h
  | .push p x :: steps, s, _, h => Holds.run steps (s := s.push p x) (h.push p x)
  | .drain :: steps, s, _, h => by
    have hempty : Holds limit [] s.drain.2 := h.drain ▸ holds_empty limit
    exact Holds.run steps (s := s.drain.2) hempty

theorem holds_run (limit : Nat) (steps : List (Step α)) :
    Holds limit (since steps) ((empty limit).run steps) :=
  Holds.run steps (holds_empty limit)

/-! ### Batches that are not looked for -/

/-- Batches, with the place of the last one of each partition. -/
structure Index (α : Type) where
  limit : Nat
  batches : List (Batch α)
  last : Table TopicPartition Nat

namespace Index

def empty (limit : Nat) : Index α := ⟨max limit 1, [], .empty⟩

/-- The item begins a batch. -/
def begin (t : Index α) (p : TopicPartition) (item : α) : Index α :=
  { t with
    batches := t.batches ++ [⟨p, [item]⟩]
    last := t.last.put p t.batches.length }

/-- The item joins the last batch of its partition if that has room. -/
def push (t : Index α) (p : TopicPartition) (item : α) : Index α :=
  match t.last.get? p with
  | none => t.begin p item
  | some i =>
    match t.batches[i]? with
    | none => t.begin p item
    | some b =>
      if b.items.length < t.limit then
        { t with batches := t.batches.set i { b with items := b.items ++ [item] } }
      else t.begin p item

def drain (t : Index α) : List (Batch α) × Index α :=
  (t.batches, { t with batches := [], last := .empty })

def step (t : Index α) : Step α → Index α
  | .push p item => t.push p item
  | .drain => t.drain.2

def run (t : Index α) (steps : List (Step α)) : Index α := steps.foldl step t

/-- The last place at which the partition stands. -/
def LastAt (ps : List TopicPartition) (p : TopicPartition) (i : Nat) : Prop :=
  ps[i]? = some p ∧ ∀ j, i < j → ps[j]? ≠ some p

theorem lastAt_append (ps : List TopicPartition) (p : TopicPartition) :
    LastAt (ps ++ [p]) p ps.length := by
  refine ⟨by simp, fun j hj => ?_⟩
  rw [List.getElem?_eq_none (by rw [List.length_append, List.length_singleton]; omega)]
  simp

theorem LastAt.append_of_ne {ps : List TopicPartition} (h : LastAt ps q i) (hne : p ≠ q) :
    LastAt (ps ++ [p]) q i := by
  have hi : i < ps.length := (List.getElem?_eq_some_iff.mp h.1).1
  refine ⟨by rw [List.getElem?_append_left hi]; exact h.1, fun j hj => ?_⟩
  by_cases hlt : j < ps.length
  · rw [List.getElem?_append_left hlt]
    exact h.2 j hj
  · by_cases heq : j = ps.length
    · subst heq
      simpa using hne
    · rw [List.getElem?_eq_none (by rw [List.length_append, List.length_singleton]; omega)]
      simp

/-- Of two places that are each the last, neither is after the other. -/
theorem LastAt.unique {ps : List TopicPartition} {j : Nat} (hi : LastAt ps p i)
    (hj : LastAt ps p j) : i = j := by
  by_contra hne
  rcases Nat.lt_or_gt_of_ne hne with hlt | hgt
  · exact hi.2 j hlt hj.1
  · exact hj.2 i hgt hi.1

/-- The index is that of the batches. -/
structure Tracks (t : Index α) (s : Batches α) : Prop where
  limit : t.limit = s.limit
  batches : t.batches = s.batches
  known : ∀ p i, t.last.get? p = some i → LastAt (s.batches.map (·.partition)) p i
  unknown : ∀ p, t.last.get? p = none → p ∉ s.batches.map (·.partition)

variable {t : Index α}

theorem tracks_empty (limit : Nat) : Tracks (empty limit : Index α) (Batches.empty limit) where
  limit := rfl
  batches := rfl
  known := fun _ _ h => nomatch h
  unknown := fun _ _ => List.not_mem_nil

theorem Tracks.begin (h : t.Tracks s) {p : TopicPartition} {x : α}
    (he : place s.limit p x s.batches = s.batches ++ [⟨p, [x]⟩]) :
    (t.begin p x).Tracks (s.push p x) where
  limit := h.limit
  batches := by
    rw [Index.begin, h.batches]
    exact he.symm
  known := fun q i hq => by
    rw [Index.begin, h.batches, Table.get?_put] at hq
    rw [Batches.push, he, List.map_append]
    split at hq
    · rename_i hpq
      obtain rfl := Option.some.inj hq
      subst hpq
      simpa using lastAt_append (s.batches.map (·.partition)) p
    · rename_i hpq
      exact (h.known q i hq).append_of_ne hpq
  unknown := fun q hq => by
    rw [Index.begin, Table.get?_put] at hq
    rw [Batches.push, he, List.map_append, List.mem_append]
    split at hq
    · cases hq
    · rename_i hpq
      rintro (hm | hm)
      · exact h.unknown q hq hm
      · exact hpq (List.mem_singleton.mp hm).symm

/-- **The index finds the batch that the item goes to.** -/
theorem Tracks.push (h : t.Tracks s) (hp : Packed s.limit s.batches) (p : TopicPartition) (x : α) :
    (t.push p x).Tracks (s.push p x) := by
  rcases place_cases (p := p) x hp with ⟨hfull, he⟩ | ⟨before, b, after, hs, hb, hroom, hback, he⟩
  · -- whatever the index names is full
    have hbegin : t.push p x = t.begin p x := by
      rw [Index.push]
      cases hl : t.last.get? p with
      | none => rfl
      | some i =>
        have hi := (h.known p i hl).1
        rw [List.getElem?_map, Option.map_eq_some_iff] at hi
        obtain ⟨c, hc, hcp⟩ := hi
        have hle := hfull c (List.mem_of_getElem? hc) hcp
        simp only [h.batches, hc, h.limit]
        rw [if_neg (Nat.not_lt_of_le hle)]
    rw [hbegin]
    exact h.begin he
  · have hlast : LastAt (s.batches.map (·.partition)) p before.length := by
      refine ⟨by simp [hs, hb], fun j hj hjp => ?_⟩
      rw [List.getElem?_map, Option.map_eq_some_iff] at hjp
      obtain ⟨c, hc, hcp⟩ := hjp
      rw [hs, List.getElem?_append_right (Nat.le_of_lt hj)] at hc
      obtain ⟨k, hk⟩ : ∃ k, j - before.length = k + 1 := ⟨j - before.length - 1, by omega⟩
      rw [hk, List.getElem?_cons_succ] at hc
      exact hback c (List.mem_of_getElem? hc) hcp
    have hl : t.last.get? p = some before.length := by
      cases hl : t.last.get? p with
      | none => exact absurd (List.mem_of_getElem? hlast.1) (h.unknown p hl)
      | some i => rw [(h.known p i hl).unique hlast]
    have hjoin : t.push p x = { t with batches := place s.limit p x s.batches } := by
      rw [Index.push, hl, he, h.batches, h.limit, hs]
      simp [hroom]
    have hsame : (place s.limit p x s.batches).map (·.partition) = s.batches.map (·.partition) := by
      rw [he, hs]
      simp
    rw [hjoin]
    exact ⟨h.limit, rfl, fun q i hq => hsame ▸ h.known q i hq, fun q hq => hsame ▸ h.unknown q hq⟩

theorem Tracks.run : ∀ (steps : List (Step α)) {t : Index α} {s : Batches α}
    {xs : List (TopicPartition × α)}, Holds limit xs s → t.Tracks s →
      (t.run steps).Tracks (s.run steps)
  | [], _, _, _, _, h => h
  | .push p x :: steps, _, _, _, hs, h => Tracks.run steps (hs.push p x) (h.push hs.packed p x)
  | .drain :: steps, t, s, _, hs, h => by
    have hempty : Holds limit [] s.drain.2 := hs.drain ▸ holds_empty limit
    refine Tracks.run steps (t := t.drain.2) (s := s.drain.2) hempty ?_
    exact ⟨h.limit, rfl, fun _ _ hq => (nomatch hq), fun _ _ => List.not_mem_nil⟩

end Index

/-! ### The main result -/

/-- The partitions of some pushes, each once, in the order in which they first
came. -/
structure Lists (xs : List (TopicPartition × α)) (ps : List TopicPartition) : Prop where
  once : ps.Nodup
  mem : ∀ p, p ∈ ps ↔ ∃ x, (p, x) ∈ xs
  order : ps.Pairwise fun p q => (xs.map Prod.fst).idxOf p < (xs.map Prod.fst).idxOf q

theorem Holds.lists (h : Holds limit xs s) : Lists xs s.partitions where
  once := nodup_partitions s
  mem := fun p => by
    rw [h.partitions, mem_distinct_iff, List.mem_map]
    exact ⟨fun ⟨⟨_, x⟩, hx, hp⟩ => ⟨x, hp ▸ hx⟩, fun ⟨x, hx⟩ => ⟨(p, x), hx, rfl⟩⟩
  order := by
    rw [h.partitions]
    exact pairwise_distinct _

/-- **Batches hold what was pushed since the last drain**, in order and as densely
as their limit allows; a drain gives them out and leaves what a new start would.
An index of the last batches gives out the same. -/
theorem gathered (limit : Nat) (steps : List (Step α)) :
    let s := (empty limit).run steps
    let xs := since steps
    Gathers (max limit 1) xs s.drain.1 ∧ Lists xs s.partitions ∧
      s.size = xs.length ∧ (s.isEmpty = true ↔ xs = []) ∧ s.drain.2 = empty limit ∧
      ((Index.empty limit).run steps).drain = (s.drain.1, Index.empty limit) := by
  intro s xs
  have h : Holds limit xs s := holds_run limit steps
  have ht : ((Index.empty limit).run steps).Tracks s :=
    Index.Tracks.run steps (holds_empty limit) (Index.tracks_empty limit)
  refine ⟨?_, h.lists, h.size, ?_, h.drain, ?_⟩
  · rw [← h.limit]
    exact h.gathers
  · show s.batches.isEmpty = true ↔ xs = []
    rw [List.isEmpty_iff, ← List.length_eq_zero_iff (l := xs), ← h.size, size]
    cases hb : s.batches with
    | nil => simp [count]
    | cons b bs =>
      have hone := (h.gathers.sizes b (by simp [hb])).1
      simp only [reduceCtorEq, count, false_iff]
      omega
  · rw [Index.drain, ht.batches, ht.limit, h.limit]
    rfl

/-- Batches of two: the third item for "T" begins a batch after that for "U". -/
example : let t : TopicPartition := ⟨"T", 0⟩; let u : TopicPartition := ⟨"U", 0⟩
    ((empty 2).run [.push t 1, .push u 2, .push t 3, .push t 4]).drain.1 =
      [⟨t, [1, 3]⟩, ⟨u, [2]⟩, ⟨t, [4]⟩] := by
  rfl

end Batches
end FencedLog
