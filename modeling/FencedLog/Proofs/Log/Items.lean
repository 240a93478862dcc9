/-
# A log is what was written to it

A log is known by its items: records with the producer of their transaction,
and markers. Items only come at the end (`items_extend`), and each takes the
next offset, so a log that was written item by item has the entry of offset
`i` at place `i` (`Dense`).

The fate of a transactional record is the outcome of the first later marker
of its producer (`fates_eq_decision`).

Key definitions: `Log.Item`, `Log.items`, `Log.extend`, `Log.Dense`,
`Log.decision`.
Key theorems: `Log.items_extend`, `Log.dense_extend`, `Log.fates_eq_decision`,
`Log.decision_append`.
-/
import FencedLog.Log.Basic
import FencedLog.Proofs.Keys

namespace FencedLog
namespace Log

/-- An entry without its offset. -/
inductive Item where
  | record (producer : Option Int) (record : Record)
  | marker (producer : Int) (outcome : Outcome)
deriving DecidableEq

/-- The item as the entry of an offset. -/
def Item.entry (offset : Nat) : Item → Entry
  | record producer r => .data offset producer r
  | marker producer o => .marker offset producer o

def Item.ofEntry : Entry → Item
  | .data _ producer r => record producer r
  | .marker _ producer o => marker producer o

/-- The items as entries of consecutive offsets. -/
def entriesOf (offset : Nat) : List Item → List Entry
  | [] => []
  | x :: xs => x.entry offset :: entriesOf (offset + 1) xs

def items (log : Log) : List Item := log.entries.map Item.ofEntry

/-- The log with more items at its end. -/
def extend (log : Log) (xs : List Item) : Log :=
  ⟨log.entries ++ entriesOf log.next xs, log.next + xs.length⟩

/-- The log was written item by item. -/
def Dense (log : Log) : Prop := log = empty.extend log.items

/-! ### Extension -/

theorem entriesOf_append : ∀ (xs ys : List Item) (offset : Nat),
    entriesOf offset (xs ++ ys) = entriesOf offset xs ++ entriesOf (offset + xs.length) ys
  | [], _, _ => rfl
  | x :: xs, ys, offset => by
    rw [List.cons_append, entriesOf, entriesOf_append xs ys, entriesOf, List.cons_append,
      List.length_cons, Nat.add_right_comm, Nat.add_assoc]

theorem ofEntry_entriesOf : ∀ (xs : List Item) (offset : Nat),
    (entriesOf offset xs).map Item.ofEntry = xs
  | [], _ => rfl
  | x :: xs, offset => by
    rw [entriesOf, List.map_cons, ofEntry_entriesOf xs]
    cases x <;> rfl

theorem entriesOf_getElem? : ∀ (xs : List Item) (offset i : Nat),
    (entriesOf offset xs)[i]? = xs[i]?.map fun x => x.entry (offset + i)
  | [], _, _ => rfl
  | x :: xs, offset, 0 => rfl
  | x :: xs, offset, i + 1 => by
    rw [entriesOf, List.getElem?_cons_succ, List.getElem?_cons_succ, entriesOf_getElem? xs,
      Nat.add_assoc, Nat.add_comm 1 i]

variable (log : Log)

@[simp] theorem extend_nil : log.extend [] = log := by simp [extend, entriesOf]

theorem extend_append (xs ys : List Item) : log.extend (xs ++ ys) = (log.extend xs).extend ys := by
  simp only [extend, entriesOf_append, List.append_assoc, List.length_append, Nat.add_assoc]

@[simp] theorem items_empty : empty.items = [] := rfl

/-- Items come at the end. -/
@[simp] theorem items_extend (xs : List Item) : (log.extend xs).items = log.items ++ xs := by
  simp only [items, extend, List.map_append, ofEntry_entriesOf]

@[simp] theorem length_items : log.items.length = log.entries.length := List.length_map _

theorem append_eq_extend (producer : Option Int) (records : List Record) :
    log.append producer records = log.extend (records.map (.record producer)) := by
  have h : ∀ (rs : List Record) (offset : Nat),
      entriesFrom offset producer rs = entriesOf offset (rs.map (.record producer)) := by
    intro rs
    induction rs with
    | nil => intro _; rfl
    | cons r rs ih =>
      intro offset
      rw [entriesFrom, ih, List.map_cons, entriesOf]
      rfl
  simp only [append, extend, h, List.length_map]

variable {log}

theorem dense_empty : Dense empty := rfl

theorem dense_extend (h : log.Dense) (xs : List Item) : (log.extend xs).Dense := by
  unfold Dense
  rw [items_extend, extend_append, ← h]

/-- In a dense log the next offset is the number of entries. -/
theorem Dense.next_eq (h : log.Dense) : log.next = log.entries.length := by
  rw [← length_items]
  conv =>
    lhs
    rw [h]
  simp [extend, empty]

/-- In a dense log every item is the entry of its place. -/
theorem Dense.entry (h : log.Dense) (i : Nat) :
    log.entries[i]? = log.items[i]?.map fun x => x.entry i := by
  conv =>
    lhs
    rw [h]
  simp only [extend, empty, List.nil_append, entriesOf_getElem?, Nat.zero_add]

/-! ### Fates -/

/-- The outcome of the first marker of a producer. -/
def decision (producer : Int) : List Item → Option Outcome
  | [] => none
  | .marker q o :: rest => if q = producer then some o else decision producer rest
  | .record .. :: rest => decision producer rest

theorem decision_append (producer : Int) : ∀ xs ys : List Item,
    decision producer (xs ++ ys) = (decision producer xs).or (decision producer ys)
  | [], _ => rfl
  | .marker q o :: xs, ys => by
    rw [List.cons_append, decision, decision]
    split
    · rfl
    · exact decision_append producer xs ys
  | .record .. :: xs, ys => decision_append producer xs ys

theorem scan_table (producer : Int) : ∀ es : List Entry,
    (scan es).2.get? producer = decision producer (es.map Item.ofEntry)
  | [] => rfl
  | .marker _ q o :: es => by
    rw [scan, List.map_cons, Item.ofEntry, decision, Table.get?_put, scan_table producer es]
  | .data _ (some _) _ :: es => scan_table producer es
  | .data _ none _ :: es => scan_table producer es

theorem scan_fates (producer : Int) (r : Record) : ∀ (es : List Entry) (i : Nat),
    (es.map Item.ofEntry)[i]? = some (.record (some producer) r) →
      (scan es).1[i]? = some (decision producer ((es.map Item.ofEntry).drop (i + 1)))
  | [], _, h => by simp at h
  | .marker .. :: es, 0, h => by simp [Item.ofEntry] at h
  | .data _ none _ :: es, 0, h => by simp [Item.ofEntry] at h
  | .data _ (some q) r' :: es, 0, h => by
    rw [List.map_cons, Item.ofEntry, List.getElem?_cons_zero, Option.some.injEq,
      Item.record.injEq, Option.some.injEq] at h
    rw [← h.1, List.map_cons, List.drop_succ_cons, List.drop_zero, ← scan_table]
    rfl
  | .marker .. :: es, i + 1, h => scan_fates producer r es i (by simpa using h)
  | .data _ none _ :: es, i + 1, h => scan_fates producer r es i (by simpa using h)
  | .data _ (some _) _ :: es, i + 1, h => scan_fates producer r es i (by simpa using h)

/-- A transactional record is decided by the first later marker of its
producer. -/
theorem fates_eq_decision {i : Nat} {producer : Int} {r : Record}
    (h : log.items[i]? = some (.record (some producer) r)) :
    log.fates[i]? = some (decision producer (log.items.drop (i + 1))) :=
  scan_fates producer r log.entries i h

end Log
end FencedLog
