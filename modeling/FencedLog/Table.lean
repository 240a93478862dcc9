/-
# Tables

A table holds at most one value per key, in the order in which the keys first
came. Writing an existing key keeps its place.

Key definitions: `Table`, `Table.get?`, `Table.put`, `Table.erase`.
Key theorems: `Table.get?_put_self`, `Table.get?_put_of_ne`,
`Table.get?_erase_self`, `Table.get?_erase_of_ne`.
-/

namespace FencedLog

/-- Keys with their values. -/
structure Table (κ ν : Type) where
  rows : List (κ × ν)
deriving DecidableEq

namespace Table

variable {κ ν : Type} [DecidableEq κ]

def empty : Table κ ν := ⟨[]⟩

instance : Inhabited (Table κ ν) := ⟨empty⟩

def find (k : κ) : List (κ × ν) → Option ν
  | [] => none
  | (k', v) :: rows => if k' = k then some v else find k rows

/-- The value of a key. -/
def get? (t : Table κ ν) (k : κ) : Option ν := find k t.rows

def contains (t : Table κ ν) (k : κ) : Bool := (t.get? k).isSome

def write (k : κ) (v : ν) : List (κ × ν) → List (κ × ν)
  | [] => [(k, v)]
  | (k', v') :: rows => if k' = k then (k, v) :: rows else (k', v') :: write k v rows

/-- The table with `v` at `k`: in the place of `k` if it has one, else last. -/
def put (t : Table κ ν) (k : κ) (v : ν) : Table κ ν := ⟨write k v t.rows⟩

/-- The table without `k`. -/
def erase (t : Table κ ν) (k : κ) : Table κ ν := ⟨t.rows.filter fun r => !decide (r.1 = k)⟩

def keys (t : Table κ ν) : List κ := t.rows.map (·.1)

@[simp] theorem get?_empty (k : κ) : (empty : Table κ ν).get? k = none := rfl

theorem find_write_self (k : κ) (v : ν) : ∀ rows, find k (write k v rows) = some v
  | [] => by simp [write, find]
  | (k', v') :: rows => by
    by_cases h : k' = k
    · simp [write, find, h]
    · simp [write, find, h, find_write_self k v rows]

theorem find_write_of_ne {k j : κ} (h : k ≠ j) (v : ν) : ∀ rows,
    find j (write k v rows) = find j rows
  | [] => by simp [write, find, h]
  | (k', v') :: rows => by
    by_cases hk : k' = k
    · subst hk
      simp [write, find, h]
    · simp [write, find, hk, find_write_of_ne h v rows]

/-- A written key reads back. -/
@[simp] theorem get?_put_self (t : Table κ ν) (k : κ) (v : ν) : (t.put k v).get? k = some v :=
  find_write_self k v t.rows

/-- A write leaves the other keys alone. -/
theorem get?_put_of_ne (t : Table κ ν) {k j : κ} (h : k ≠ j) (v : ν) :
    (t.put k v).get? j = t.get? j :=
  find_write_of_ne h v t.rows

theorem find_filter_self (k : κ) : ∀ rows : List (κ × ν),
    find k (rows.filter fun r => !decide (r.1 = k)) = none
  | [] => rfl
  | (k', v') :: rows => by
    by_cases h : k' = k
    · simp [h, find_filter_self k rows]
    · simp [h, find, find_filter_self k rows]

theorem find_filter_of_ne {k j : κ} (h : k ≠ j) : ∀ rows : List (κ × ν),
    find j (rows.filter fun r => !decide (r.1 = k)) = find j rows
  | [] => rfl
  | (k', v') :: rows => by
    by_cases hk : k' = k
    · subst hk
      simp [find, h, find_filter_of_ne h rows]
    · simp [hk, find, find_filter_of_ne h rows]

@[simp] theorem get?_erase_self (t : Table κ ν) (k : κ) : (t.erase k).get? k = none :=
  find_filter_self k t.rows

theorem get?_erase_of_ne (t : Table κ ν) {k j : κ} (h : k ≠ j) : (t.erase k).get? j = t.get? j :=
  find_filter_of_ne h t.rows

end Table
end FencedLog
