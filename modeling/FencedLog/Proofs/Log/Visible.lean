/-
# What a log shows, by what was written to it

A log works out fates in one pass from its end, with a table of the markers
met so far, and cuts a read of committed records at the first entry that is
open. A reader who knows the items in the order they were written can say the
same without a pass: a record of a transaction is decided by the first later
marker of its producer (`decision_eq_some_iff`), the stable offset is the least
place of a record that no marker decides, and a reader of committed records is
shown the records below it that belong to no transaction or to one that was
committed (`shows`).

Key definitions: `Log.Write`, `Log.written`, `Log.DecidedBy`, `Log.Undecided`,
`Log.Shows`.
Key theorems: `Log.decision_eq_some_iff`, `Log.undecided_iff_isOpen`,
`Log.mem_readCommitted`, `Log.shows`.
-/
import Mathlib.Order.Bounds.Defs
import FencedLog.Proofs.Log.Stable

namespace FencedLog
namespace Log

/-- One write to a log: records of one producer or of none, or a marker. -/
inductive Write where
  | append (producer : Option Int) (records : List Record)
  | mark (producer : Int) (outcome : Outcome)

/-- The items of a write, in the order they are written. -/
def Write.items : Write → List Item
  | append producer records => records.map (.record producer)
  | mark producer o => [.marker producer o]

def write (log : Log) : Write → Log
  | .append producer records => log.append producer records
  | .mark producer o => log.mark producer o

/-- The log after writes to an empty one. -/
def written (ws : List Write) : Log := ws.foldl write empty

/-- The first marker of `producer` after place `i` has the outcome `o`. -/
def DecidedBy (xs : List Item) (i : Nat) (producer : Int) (o : Outcome) : Prop :=
  ∃ j : Nat, i < j ∧ xs[j]? = some (.marker producer o) ∧
    ∀ k : Nat, i < k → k < j → ∀ o', xs[k]? ≠ some (.marker producer o')

/-- At place `i` is a record of a transaction, and no marker of its producer
comes after it. -/
def Undecided (xs : List Item) (i : Nat) : Prop :=
  ∃ producer r, xs[i]? = some (.record (some producer) r) ∧
    ∀ k : Nat, i < k → ∀ o, xs[k]? ≠ some (.marker producer o)

/-- The log shows the items `xs`: everything it tells of itself is said of
them. -/
structure Shows (log : Log) (xs : List Item) : Prop where
  /-- The entry at place `i` is the item written there, at the offset `i`. -/
  entry : ∀ i : Nat, log.entries[i]? = xs[i]?.map fun x => x.entry i
  watermark : log.highWatermark = log.entries.length
  /-- There is one fate for each entry. -/
  fated : log.fates.length = log.entries.length
  /-- A record of a transaction has the outcome of the first later marker of
  its producer. -/
  decided : ∀ (i : Nat) producer r, xs[i]? = some (.record (some producer) r) →
    ∀ o, log.fates[i]? = some (some o) ↔ DecidedBy xs i producer o
  /-- It has none if no such marker comes. -/
  undecided : ∀ (i : Nat) producer r, xs[i]? = some (.record (some producer) r) →
    (log.fates[i]? = some none ↔ Undecided xs i)
  /-- Nothing else has a fate. -/
  fateless : ∀ (i : Nat) x, xs[i]? = some x → (∀ producer r, x ≠ .record (some producer) r) →
    log.fates[i]? = some none
  /-- The stable offset is the least one of an undecided record, -/
  least : (∃ i, Undecided xs i) → IsLeast {i | Undecided xs i} log.stableOffset
  /-- and the end of the log if all are decided. -/
  settled : (∀ i, ¬Undecided xs i) → log.stableOffset = log.highWatermark
  /-- Either read gives the records in the order of their offsets. -/
  ordered : ∀ isolation, (log.read isolation).Pairwise fun a b => a.1 < b.1
  /-- Whoever reads uncommitted records is shown all records, as they were
  written. -/
  uncommitted : ∀ (i : Nat) r, (i, r) ∈ log.read .readUncommitted ↔
    ∃ producer, xs[i]? = some (.record producer r)
  /-- Whoever reads committed records is shown those below the stable offset
  that belong to no transaction or to a committed one. -/
  committed : ∀ (i : Nat) r, (i, r) ∈ log.read .readCommitted ↔ i < log.stableOffset ∧
    (xs[i]? = some (.record none r) ∨
      ∃ producer, xs[i]? = some (.record (some producer) r) ∧ DecidedBy xs i producer .commit)

/-! ### Writes as items -/

theorem write_eq_extend (log : Log) (w : Write) : log.write w = log.extend w.items := by
  cases w with
  | append producer records => exact append_eq_extend log producer records
  | mark producer o => rfl

theorem foldl_write (ws : List Write) (log : Log) :
    ws.foldl write log = log.extend (ws.flatMap Write.items) := by
  induction ws generalizing log with
  | nil => exact (extend_nil log).symm
  | cons w ws ih => rw [List.foldl_cons, ih, write_eq_extend, List.flatMap_cons, extend_append]

theorem dense_written (ws : List Write) : (written ws).Dense := by
  rw [written, foldl_write]
  exact dense_extend dense_empty _

theorem items_written (ws : List Write) : (written ws).items = ws.flatMap Write.items := by
  rw [written, foldl_write, items_extend, items_empty, List.nil_append]

/-! ### The first marker by its place -/

theorem decision_eq_some_iff (producer : Int) (o : Outcome) : ∀ xs : List Item,
    decision producer xs = some o ↔ ∃ j : Nat, xs[j]? = some (.marker producer o) ∧
      ∀ k : Nat, k < j → ∀ o', xs[k]? ≠ some (.marker producer o')
  | [] => by simp [decision]
  | x :: xs => by
    have ih := decision_eq_some_iff producer o xs
    -- a head that is no marker of the producer moves every place by one
    have hskip : (∀ o', x ≠ .marker producer o') → (decision producer xs = some o ↔
        ∃ j : Nat, (x :: xs)[j]? = some (.marker producer o) ∧
          ∀ k : Nat, k < j → ∀ o', (x :: xs)[k]? ≠ some (.marker producer o')) := by
      intro hx
      rw [ih]
      constructor
      · rintro ⟨j, hj, hfirst⟩
        refine ⟨j + 1, hj, fun k hk o' => ?_⟩
        cases k with
        | zero => simpa using hx o'
        | succ k => exact hfirst k (Nat.lt_of_succ_lt_succ hk) o'
      · rintro ⟨j, hj, hfirst⟩
        cases j with
        | zero => exact absurd (by simpa using hj) (hx o)
        | succ j => exact ⟨j, hj, fun k hk => hfirst (k + 1) (Nat.succ_lt_succ hk)⟩
    cases x with
    | record => exact hskip fun _ => Item.noConfusion
    | marker q o₁ =>
      rw [decision]
      by_cases hq : q = producer
      · subst hq
        rw [if_pos rfl, Option.some.injEq]
        constructor
        · rintro rfl
          exact ⟨0, rfl, fun k hk => absurd hk (Nat.not_lt_zero k)⟩
        · rintro ⟨j, hj, hfirst⟩
          cases j with
          | zero => simpa using hj
          | succ j => exact absurd rfl (hfirst 0 (Nat.succ_pos j) o₁)
      · rw [if_neg hq]
        exact hskip fun o' h => hq (Item.marker.inj h).1

theorem decision_eq_none_iff (producer : Int) : ∀ xs : List Item,
    decision producer xs = none ↔ ∀ (k : Nat) o, xs[k]? ≠ some (.marker producer o)
  | [] => by simp [decision]
  | x :: xs => by
    have ih := decision_eq_none_iff producer xs
    have hcons : (∀ (k : Nat) o, (x :: xs)[k]? ≠ some (.marker producer o)) ↔
        (∀ o, x ≠ .marker producer o) ∧ ∀ (k : Nat) o, xs[k]? ≠ some (.marker producer o) := by
      constructor
      · exact fun h => ⟨fun o => by simpa using h 0 o, fun k o => h (k + 1) o⟩
      · rintro ⟨hx, hxs⟩ k o
        cases k with
        | zero => simpa using hx o
        | succ k => exact hxs k o
    rw [hcons, ← ih]
    cases x with
    | record => simp [decision]
    | marker q o =>
      by_cases hq : q = producer <;> simp [decision, hq]

variable {log : Log} {i : Nat} {producer : Int} {r : Record}

/-- The fate of a record of a transaction is the outcome of the first later
marker of its producer. -/
theorem fates_eq_some_iff (h : log.items[i]? = some (.record (some producer) r)) (o : Outcome) :
    log.fates[i]? = some (some o) ↔ DecidedBy log.items i producer o := by
  rw [fates_eq_decision h, Option.some.injEq, decision_eq_some_iff]
  simp only [List.getElem?_drop, DecidedBy]
  constructor
  · rintro ⟨j, hj, hfirst⟩
    refine ⟨i + 1 + j, by omega, hj, fun k hik hkj o' => ?_⟩
    have := hfirst (k - (i + 1)) (by omega) o'
    rwa [Nat.add_sub_cancel' hik] at this
  · rintro ⟨j, hij, hj, hfirst⟩
    refine ⟨j - (i + 1), by rwa [Nat.add_sub_cancel' hij], fun k hk o' => ?_⟩
    exact hfirst (i + 1 + k) (by omega) (by omega) o'

theorem fates_eq_none_iff (h : log.items[i]? = some (.record (some producer) r)) :
    log.fates[i]? = some none ↔ Undecided log.items i := by
  rw [fates_eq_decision h, Option.some.injEq, decision_eq_none_iff]
  simp only [List.getElem?_drop]
  constructor
  · intro hnone
    refine ⟨producer, r, h, fun k hik o => ?_⟩
    have := hnone (k - (i + 1)) o
    rwa [Nat.add_sub_cancel' hik] at this
  · rintro ⟨q, r', h', hnone⟩ k o
    obtain ⟨hq, -⟩ : some producer = some q ∧ r = r' := Item.record.inj (Option.some.inj (h.symm.trans h'))
    cases hq
    exact hnone (i + 1 + k) (by omega) o

theorem scan_fateless (x : Item) (hx : ∀ producer r, x ≠ .record (some producer) r) :
    ∀ (es : List Entry) (i : Nat), (es.map Item.ofEntry)[i]? = some x →
      (scan es).1[i]? = some none
  | [], _, h => by simp at h
  | .marker .. :: es, 0, h => rfl
  | .data _ none _ :: es, 0, h => rfl
  | .data _ (some _) _ :: es, 0, h => absurd (by simpa [Item.ofEntry] using h.symm) (hx _ _)
  | .marker .. :: es, i + 1, h => scan_fateless x hx es i (by simpa using h)
  | .data _ none _ :: es, i + 1, h => scan_fateless x hx es i (by simpa using h)
  | .data _ (some _) _ :: es, i + 1, h => scan_fateless x hx es i (by simpa using h)

/-! ### The stable offset -/

theorem Dense.row (h : log.Dense) {x : Item} {fate : Option Outcome} :
    log.rows[i]? = some (x.entry i, fate) ↔ log.items[i]? = some x ∧ log.fates[i]? = some fate := by
  rw [rows_getElem?, h.entry, Option.map_eq_some_iff]
  refine and_congr_left fun _ => ⟨?_, fun hx => ⟨x, hx, rfl⟩⟩
  rintro ⟨y, hy, hentry⟩
  have hof : ∀ z : Item, Item.ofEntry (z.entry i) = z := fun z => by cases z <;> rfl
  rw [hy, ← hof y, hentry, hof]

/-- Every row is that of an item. -/
theorem Dense.of_row (h : log.Dense) {row : Entry × Option Outcome}
    (hrow : log.rows[i]? = some row) : ∃ x : Item, row.1 = x.entry i ∧ log.items[i]? = some x ∧
      log.fates[i]? = some row.2 := by
  obtain ⟨hentry, hfate⟩ := rows_getElem?.mp hrow
  rw [h.entry, Option.map_eq_some_iff] at hentry
  obtain ⟨x, hx, hentry⟩ := hentry
  exact ⟨x, hentry.symm, hx, hfate⟩

theorem undecided_iff_isOpen (h : log.Dense) {row : Entry × Option Outcome}
    (hrow : log.rows[i]? = some row) : Undecided log.items i ↔ isOpen row = true := by
  obtain ⟨x, hentry, hx, hfate⟩ := h.of_row hrow
  obtain ⟨e, fate⟩ := row
  subst hentry
  -- an item other than a record of a transaction waits for nothing
  have hother : (∀ producer r, x ≠ .record (some producer) r) → ¬Undecided log.items i := by
    rintro hx' ⟨producer, r, hr, -⟩
    exact hx' producer r (Option.some.inj (hx.symm.trans hr))
  cases x with
  | marker producer o => simpa [Item.entry, isOpen] using hother fun _ _ => Item.noConfusion
  | record producer r =>
    cases producer with
    | none => simpa [Item.entry, isOpen] using hother fun _ _ hr => by cases hr
    | some producer =>
      rw [← fates_eq_none_iff hx, hfate]
      cases fate <;> simp [Item.entry, isOpen]

theorem Undecided.lt (hi : Undecided log.items i) : i < log.rows.length := by
  obtain ⟨producer, r, hr, -⟩ := hi
  rw [length_rows, ← length_items]
  exact (List.getElem?_eq_some_iff.mp hr).1

theorem undecided_iff (h : log.Dense) :
    Undecided log.items i ↔ ∃ hlt : i < log.rows.length, isOpen log.rows[i] = true := by
  constructor
  · intro hi
    have hlt := hi.lt
    exact ⟨hlt, (undecided_iff_isOpen h (List.getElem?_eq_getElem hlt)).mp hi⟩
  · rintro ⟨hlt, hopen⟩
    exact (undecided_iff_isOpen h (List.getElem?_eq_getElem hlt)).mpr hopen

theorem isLeast_stableOffset (h : log.Dense) (hsome : ∃ i, Undecided log.items i) :
    IsLeast {i | Undecided log.items i} log.stableOffset := by
  obtain ⟨i, hi⟩ := hsome
  obtain ⟨hlt, hopen⟩ := (undecided_iff h).mp hi
  have hfound : log.stableOffset < log.rows.length := by
    rw [stableOffset_eq h]
    exact List.findIdx_lt_length_of_exists ⟨_, List.getElem_mem hlt, hopen⟩
  refine ⟨(undecided_iff h).mpr ⟨hfound, ?_⟩, fun j hj => Nat.le_of_not_lt fun hlow => ?_⟩
  · simp only [stableOffset_eq h]
    exact List.findIdx_getElem
  · obtain ⟨hj, hopen⟩ := (undecided_iff h).mp hj
    have hclosed := closed_of_lt h hlow (List.getElem?_eq_getElem hj)
    rw [hopen] at hclosed
    cases hclosed

theorem stableOffset_settled (h : log.Dense) (hall : ∀ i, ¬Undecided log.items i) :
    log.stableOffset = log.highWatermark := by
  rw [stableOffset_eq h, highWatermark, h.next_eq, ← length_rows, List.findIdx_eq_length]
  intro row hrow
  obtain ⟨i, hlt, rfl⟩ := List.getElem_of_mem hrow
  refine Bool.eq_false_iff.mpr fun hopen => ?_
  exact hall i ((undecided_iff h).mpr ⟨hlt, hopen⟩)

/-! ### Reads -/

theorem visible?_entry {x : Item} {j : Nat} : (x.entry i).visible? = some (j, r) ↔
    i = j ∧ ∃ producer, x = .record producer r := by
  cases x <;> simp [Item.entry, Entry.visible?]

theorem offset_visible? {e : Entry} {v : Nat × Record} (h : e.visible? = some v) :
    v.1 = e.offset := by
  cases e with
  | data => cases h; rfl
  | marker => cases h

theorem pairwise_rows (h : log.Dense) :
    log.rows.Pairwise fun a b => a.1.offset < b.1.offset := by
  refine List.pairwise_iff_getElem.mpr fun i j hi hj hij => ?_
  rw [h.numbered i _ (List.getElem?_eq_getElem hi), h.numbered j _ (List.getElem?_eq_getElem hj)]
  omega

theorem entries_eq_rows (log : Log) : log.entries = log.rows.map Prod.fst := by
  rw [rows, List.map_fst_zip]
  exact Nat.le_of_eq (length_scan log.entries).symm

/-- A read picks rows, and shows each at its own offset. -/
theorem pairwise_read (h : log.Dense) (isolation : Isolation) :
    (log.read isolation).Pairwise fun a b => a.1 < b.1 := by
  have hpick : ∀ rows : List (Entry × Option Outcome), rows.Sublist log.rows →
      (rows.filterMap (·.1.visible?)).Pairwise fun a b => a.1 < b.1 := by
    intro rows hsub
    refine ((pairwise_rows h).sublist hsub).filterMap _ fun a b hlt va ha vb hb => ?_
    rwa [offset_visible? ha, offset_visible? hb]
  cases isolation with
  | readUncommitted =>
    have hread : log.read .readUncommitted = log.rows.filterMap (·.1.visible?) := by
      rw [read, entries_eq_rows, List.filterMap_map]
      rfl
    rw [hread]
    exact hpick _ (List.Sublist.refl _)
  | readCommitted =>
    rw [read_readCommitted h]
    exact hpick _ (List.filter_sublist.trans (List.take_sublist _ _))

theorem mem_readUncommitted (h : log.Dense) :
    (i, r) ∈ log.read .readUncommitted ↔ ∃ producer, log.items[i]? = some (.record producer r) := by
  rw [read, List.mem_filterMap]
  constructor
  · rintro ⟨e, he, hvisible⟩
    obtain ⟨j, hj⟩ := List.getElem?_of_mem he
    rw [h.entry, Option.map_eq_some_iff] at hj
    obtain ⟨x, hx, rfl⟩ := hj
    obtain ⟨rfl, producer, rfl⟩ := visible?_entry.mp hvisible
    exact ⟨producer, hx⟩
  · rintro ⟨producer, hx⟩
    have hentry := h.entry i
    rw [hx] at hentry
    exact ⟨_, List.mem_of_getElem? hentry, rfl⟩

theorem committed_record {producer : Option Int} {fate : Option Outcome} :
    committed ((Item.record producer r).entry i, fate) = true ↔
      producer = none ∨ fate = some .commit := by
  cases producer <;> simp [Item.entry, committed]

theorem mem_readCommitted (h : log.Dense) : (i, r) ∈ log.read .readCommitted ↔
    i < log.stableOffset ∧ (log.items[i]? = some (.record none r) ∨
      ∃ producer, log.items[i]? = some (.record (some producer) r) ∧
        log.fates[i]? = some (some .commit)) := by
  rw [read_readCommitted h, List.mem_filterMap]
  constructor
  · rintro ⟨⟨e, fate⟩, hmem, hvisible⟩
    obtain ⟨hmem, hcommitted⟩ := List.mem_filter.mp hmem
    obtain ⟨j, hj⟩ := List.getElem?_of_mem hmem
    rw [List.getElem?_take] at hj
    split at hj
    · rename_i hlow
      obtain ⟨x, hentry, hx, hfate⟩ := h.of_row hj
      subst hentry
      obtain ⟨rfl, producer, rfl⟩ := visible?_entry.mp hvisible
      refine ⟨hlow, (committed_record.mp hcommitted).imp ?_ fun hfate' => ?_⟩
      · rintro rfl
        exact hx
      · subst hfate'
        -- only a record of a transaction has a fate
        cases producer with
        | some producer => exact ⟨producer, hx, hfate⟩
        | none =>
          have := scan_fateless _ (fun _ _ hr => by cases hr) log.entries j hx
          cases Option.some.inj (this.symm.trans hfate)
    · cases hj
  · rintro ⟨hlow, hcases⟩
    obtain ⟨producer, fate, hx, hfate, hcommitted⟩ : ∃ producer fate,
        log.items[i]? = some (.record producer r) ∧ log.fates[i]? = some fate ∧
          (producer = none ∨ fate = some .commit) := by
      rcases hcases with hx | ⟨producer, hx, hfate⟩
      · exact ⟨none, none, hx, scan_fateless _ (fun _ _ hr => by cases hr) log.entries i hx, .inl rfl⟩
      · exact ⟨some producer, _, hx, hfate, .inr rfl⟩
    refine ⟨((Item.record producer r).entry i, fate), List.mem_filter.mpr ⟨?_, ?_⟩, rfl⟩
    · refine List.mem_of_getElem? (i := i) ?_
      rw [List.getElem?_take, if_pos hlow]
      exact h.row.mpr ⟨hx, hfate⟩
    · exact committed_record.mpr hcommitted

/-! ### The log as a whole -/

/-- **A log shows what was written to it**, whoever wrote and in whatever
order: its entries, their fates, its stable offset and both reads are what its
items say. -/
theorem shows (ws : List Write) : (written ws).Shows (ws.flatMap Write.items) := by
  have h := dense_written ws
  rw [← items_written]
  generalize written ws = log at h
  exact {
    entry := h.entry
    watermark := h.next_eq
    fated := length_scan log.entries
    decided := fun i producer r hr => fates_eq_some_iff hr
    undecided := fun i producer r hr => fates_eq_none_iff hr
    fateless := fun i x hx hother => scan_fateless x hother log.entries i hx
    least := isLeast_stableOffset h
    settled := stableOffset_settled h
    ordered := pairwise_read h
    uncommitted := fun i r => mem_readUncommitted h
    committed := fun i r => by
      rw [mem_readCommitted h]
      refine and_congr_right fun _ => or_congr_right (exists_congr fun producer => ?_)
      exact and_congr_right fun hr => fates_eq_some_iff hr .commit }

end Log
end FencedLog
