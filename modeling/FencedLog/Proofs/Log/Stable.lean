/-
# What readers of committed records have seen stays

The fates of a log's entries and its stable offset are worked out from the
whole log at every read, so each of them may be different after an append. But
an entry is only ever decided by a later marker, and an entry that no marker
can decide any more keeps its fate (`rows_extend`). The stable offset is the
place of the first undecided entry (`stableOffset_eq`), so it only moves up, and
below it nothing changes: a reader of committed records reads on where it
stopped (`persists_extend`).

Key definitions: `Log.isOpen`, `Log.rows`, `Log.Numbered`, `Log.Persists`.
Key theorems: `Log.rows_extend`, `Log.stableOffset_eq`,
`Log.read_readCommitted`, `Log.persists_extend`.
-/
import FencedLog.Proofs.Log.Items

namespace FencedLog
namespace Log

/-- Whether an entry waits for the end of its transaction. -/
def isOpen : Entry × Option Outcome → Bool
  | (.data _ (some _) _, none) => true
  | (.data _ (some _) _, some _) => false
  | (.data _ none _, _) => false
  | (.marker .., _) => false

/-- The entries with their fates. -/
def rows (log : Log) : List (Entry × Option Outcome) := log.entries.zip log.fates

/-- Row `i` has the offset `base + i`. -/
def Numbered (base : Nat) (rows : List (Entry × Option Outcome)) : Prop :=
  ∀ (i : Nat) (row : Entry × Option Outcome), rows[i]? = some row → row.1.offset = base + i

/-! ### Fates after an append -/

theorem length_scan (es : List Entry) : (scan es).1.length = es.length := by
  fun_induction scan es with
  | case1 => rfl
  | case2 _ _ _ rest fates first hs ih => simpa [hs] using ih
  | case3 _ _ _ rest fates first hs ih => simpa [hs] using ih
  | case4 _ _ rest fates first hs ih => simpa [hs] using ih

theorem length_rows (log : Log) : log.rows.length = log.entries.length := by
  rw [rows, List.length_zip, fates, length_scan, Nat.min_self]

/-- A row that does not wait for anything stays as it is, whatever is
appended. -/
theorem scan_append {row : Entry × Option Outcome} (ho : isOpen row = false) (ys : List Entry) :
    ∀ (xs : List Entry) (i : Nat), (xs.zip (scan xs).1)[i]? = some row →
      ((xs ++ ys).zip (scan (xs ++ ys)).1)[i]? = some row
  | [], _, h => by simp at h
  | .marker .. :: _, 0, h => h
  | .data _ none _ :: _, 0, h => h
  | .data o (some q) r :: xs, 0, h => by
    simp only [scan, List.zip_cons_cons, List.getElem?_cons_zero, Option.some.injEq] at h
    simp only [List.cons_append, scan, List.zip_cons_cons, List.getElem?_cons_zero]
    subst h
    -- the row is decided, and the first marker stays the first one
    rw [scan_table] at ho ⊢
    rw [scan_table, List.map_append, decision_append]
    cases hd : decision q (xs.map Item.ofEntry) with
    | none => simp [hd, isOpen] at ho
    | some outcome => rfl
  | .marker .. :: xs, i + 1, h => scan_append ho ys xs i h
  | .data _ none _ :: xs, i + 1, h => scan_append ho ys xs i h
  | .data _ (some _) _ :: xs, i + 1, h => scan_append ho ys xs i h

variable {log : Log}

theorem rows_extend {row : Entry × Option Outcome} (ho : isOpen row = false) {i : Nat}
    (h : log.rows[i]? = some row) (xs : List Item) : (log.extend xs).rows[i]? = some row :=
  scan_append ho (entriesOf log.next xs) log.entries i h

theorem rows_getElem? {i : Nat} {e : Entry} {fate : Option Outcome} :
    log.rows[i]? = some (e, fate) ↔ log.entries[i]? = some e ∧ log.fates[i]? = some fate :=
  List.getElem?_zip_eq_some

/-! ### The stable offset -/

theorem Numbered.cons {base : Nat} {row : Entry × Option Outcome}
    {rows : List (Entry × Option Outcome)} (h : Numbered base (row :: rows)) :
    row.1.offset = base ∧ Numbered (base + 1) rows :=
  ⟨h 0 row rfl, fun i r hi => (h (i + 1) r hi).trans (by omega)⟩

theorem Dense.numbered (h : log.Dense) : Numbered 0 log.rows := by
  intro i row hi
  obtain ⟨he, -⟩ := rows_getElem?.mp hi
  rw [h.entry, Option.map_eq_some_iff] at he
  obtain ⟨item, -, he⟩ := he
  rw [← he, Nat.zero_add]
  cases item <;> rfl

theorem firstOpen_cons (row : Entry × Option Outcome) (rows : List (Entry × Option Outcome)) :
    firstOpen (row :: rows) = if isOpen row then some row.1.offset else firstOpen rows := by
  obtain ⟨_ | ⟨_, _⟩, fate⟩ := row
  · rename_i producer _
    cases producer <;> cases fate <;> rfl
  · rfl

/-- The first open offset is the place of the first open row. -/
theorem firstOpen_eq : ∀ {base : Nat} {rows : List (Entry × Option Outcome)}, Numbered base rows →
    (firstOpen rows).getD (base + rows.length) = base + rows.findIdx isOpen
  | _, [], _ => rfl
  | base, row :: rows, h => by
    obtain ⟨hoffset, htail⟩ := h.cons
    rw [firstOpen_cons, List.findIdx_cons, List.length_cons]
    cases isOpen row with
    | true => exact hoffset
    | false =>
      have ih := firstOpen_eq htail
      simp only [Bool.false_eq_true, ↓reduceIte, cond_false]
      rwa [Nat.add_comm rows.length, ← Nat.add_assoc, Nat.add_comm (List.findIdx _ _), ← Nat.add_assoc]

/-- The stable offset is the place of the first undecided entry, or the end. -/
theorem stableOffset_eq (h : log.Dense) : log.stableOffset = log.rows.findIdx isOpen := by
  have hfirst := firstOpen_eq h.numbered
  rw [length_rows, ← h.next_eq, Nat.zero_add, Nat.zero_add] at hfirst
  exact hfirst

theorem stableOffset_le (h : log.Dense) : log.stableOffset ≤ log.highWatermark := by
  rw [stableOffset_eq h, highWatermark, h.next_eq, ← length_rows]
  exact List.findIdx_le_length

/-- Nothing below the stable offset is open. -/
theorem closed_of_lt (h : log.Dense) {i : Nat} (hi : i < log.stableOffset)
    {row : Entry × Option Outcome} (hrow : log.rows[i]? = some row) : isOpen row = false := by
  rw [stableOffset_eq h] at hi
  obtain ⟨hlt, rfl⟩ := List.getElem?_eq_some_iff.mp hrow
  simpa using List.not_of_lt_findIdx hi

theorem takeWhile_eq : ∀ {base n : Nat} {rows : List (Entry × Option Outcome)}, Numbered base rows →
    rows.takeWhile (fun row => row.1.offset < base + n) = rows.take n
  | _, n, [], _ => by simp
  | base, 0, row :: rows, h => by
    have hno : base ≤ row.1.offset := Nat.le_of_eq h.cons.1.symm
    simp [hno]
  | base, n + 1, row :: rows, h => by
    obtain ⟨hoffset, htail⟩ := h.cons
    have hlt : row.1.offset < base + (n + 1) := by omega
    have ih := takeWhile_eq (n := n) htail
    rw [Nat.add_assoc, Nat.add_comm 1 n] at ih
    simp [hlt, ih]

/-- A reader of committed records sees the committed rows below the stable
offset. -/
theorem read_readCommitted (h : log.Dense) : log.read .readCommitted =
    ((log.rows.take log.stableOffset).filter committed).filterMap (·.1.visible?) := by
  have htake := takeWhile_eq (n := log.stableOffset) h.numbered
  rw [Nat.zero_add] at htake
  rw [← htake]
  rfl

/-! ### What an append leaves -/

/-- What has been read of a log, and what is settled of it, holds in `log'`. -/
structure Persists (log log' : Log) : Prop where
  entries : log.entries <+: log'.entries
  /-- The committed records are those from before, and maybe more. -/
  read : log.read .readCommitted <+: log'.read .readCommitted
  watermark : log.highWatermark ≤ log'.highWatermark
  stable : log.stableOffset ≤ log'.stableOffset
  bounded : log'.stableOffset ≤ log'.highWatermark
  /-- What has been decided stays so. -/
  decided : ∀ (i : Nat) (o : Outcome), log.fates[i]? = some (some o) →
    log'.fates[i]? = some (some o)

theorem stableOffset_extend (h : log.Dense) (xs : List Item) :
    log.stableOffset ≤ (log.extend xs).stableOffset := by
  have h' := dense_extend h xs
  refine Nat.le_of_not_lt fun hlt => ?_
  -- the entry at the new stable offset is an old one, and it was decided
  have hold : (log.extend xs).stableOffset < log.rows.length := by
    have := stableOffset_le h
    rw [length_rows, ← h.next_eq]
    exact Nat.lt_of_lt_of_le hlt this
  have hrow := List.getElem?_eq_getElem hold
  have hclosed := closed_of_lt h hlt hrow
  have hrow' := rows_extend hclosed hrow xs
  generalize log.rows[(log.extend xs).stableOffset] = row at hclosed hrow'
  obtain ⟨hlen, hget⟩ := List.getElem?_eq_some_iff.mp hrow'
  simp only [stableOffset_eq h'] at hlen hget
  have hopen := List.findIdx_getElem (w := hlen)
  rw [hget, hclosed] at hopen
  cases hopen

theorem take_extend (h : log.Dense) (xs : List Item) :
    (log.extend xs).rows.take log.stableOffset = log.rows.take log.stableOffset := by
  refine List.ext_getElem? fun i => ?_
  rw [List.getElem?_take, List.getElem?_take]
  split
  · rename_i hi
    have hlen : i < log.rows.length := by
      have := stableOffset_le h
      rw [length_rows, ← h.next_eq]
      exact Nat.lt_of_lt_of_le hi this
    have hrow := List.getElem?_eq_getElem hlen
    rw [hrow, rows_extend (closed_of_lt h hi hrow) hrow]
  · rfl

/-- **An append takes nothing back.** -/
theorem persists_extend (h : log.Dense) (xs : List Item) : log.Persists (log.extend xs) where
  entries := List.prefix_append _ _
  read := by
    have hstable := stableOffset_extend h xs
    rw [read_readCommitted h, read_readCommitted (dense_extend h xs), ← take_extend h xs]
    exact ((List.take_prefix_take_left hstable).filter _).filterMap _
  watermark := Nat.le_add_right _ _
  stable := stableOffset_extend h xs
  bounded := stableOffset_le (dense_extend h xs)
  decided := fun i o hf => by
    have hlen : i < log.entries.length := by
      have := (List.getElem?_eq_some_iff.mp hf).1
      rwa [fates, length_scan] at this
    have hrow := rows_getElem?.mpr ⟨List.getElem?_eq_getElem hlen, hf⟩
    have hclosed : isOpen (log.entries[i], some o) = false := by
      cases log.entries[i] with
      | marker => rfl
      | data _ producer _ => cases producer <;> rfl
    exact (rows_getElem?.mp (rows_extend hclosed hrow xs)).2

theorem Persists.trans {a b c : Log} (h : a.Persists b) (h' : b.Persists c) : a.Persists c where
  entries := h.entries.trans h'.entries
  read := h.read.trans h'.read
  watermark := Nat.le_trans h.watermark h'.watermark
  stable := Nat.le_trans h.stable h'.stable
  bounded := h'.bounded
  decided := fun i o hf => h'.decided i o (h.decided i o hf)

end Log
end FencedLog
