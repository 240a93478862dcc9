/-
# A table has one row for each key

A table whose keys are distinct is its look-up: a row is in the table exactly
when its key reads its value back. Writing and erasing keep the keys distinct.

Key definition: `Table.Distinct`.
Key theorems: `Table.get?_eq_some_iff`, `Table.find_of_perm`,
`Table.distinct_put`.
-/
import FencedLog.Table

namespace FencedLog
namespace Table

variable {κ ν : Type} [DecidableEq κ]

/-- No key has two rows. -/
def Distinct (t : Table κ ν) : Prop := t.keys.Nodup

omit [DecidableEq κ] in
theorem distinct_empty : (empty : Table κ ν).Distinct := List.nodup_nil

theorem mem_of_find {k : κ} {v : ν} : ∀ {rows : List (κ × ν)}, find k rows = some v → (k, v) ∈ rows
  | [], h => by simp [find] at h
  | (k', v') :: rows, h => by
    by_cases hk : k' = k
    · rw [find, if_pos hk, Option.some.injEq] at h
      rw [← hk, ← h]
      exact List.mem_cons_self
    · rw [find, if_neg hk] at h
      exact List.mem_cons_of_mem _ (mem_of_find h)

theorem find_eq_none_iff {k : κ} : ∀ {rows : List (κ × ν)}, find k rows = none ↔ k ∉ rows.map (·.1)
  | [] => by simp [find]
  | (k', v') :: rows => by
    by_cases hk : k' = k
    · simp [find, hk]
    · have hk' : ¬ k = k' := fun h => hk h.symm
      have ih : find k rows = none ↔ k ∉ rows.map (·.1) := find_eq_none_iff
      simp only [find, if_neg hk, ih, List.map_cons, List.mem_cons, hk', false_or]

theorem find_of_mem {k : κ} {v : ν} : ∀ {rows : List (κ × ν)}, (rows.map (·.1)).Nodup →
    (k, v) ∈ rows → find k rows = some v
  | [], _, h => by simp at h
  | (k', v') :: rows, hn, h => by
    rw [List.map_cons, List.nodup_cons] at hn
    rcases List.mem_cons.mp h with he | hm
    · obtain ⟨rfl, rfl⟩ := Prod.mk.inj he
      simp [find]
    · have hk : k' ≠ k := fun he => hn.1 (he ▸ List.mem_map.mpr ⟨_, hm, rfl⟩)
      rw [find, if_neg hk]
      exact find_of_mem hn.2 hm

/-- A row is there exactly when its key reads its value back. -/
theorem get?_eq_some_iff {t : Table κ ν} (h : t.Distinct) {k : κ} {v : ν} :
    t.get? k = some v ↔ (k, v) ∈ t.rows :=
  ⟨mem_of_find, find_of_mem h⟩

/-- A look-up does not depend on the order of the rows. -/
theorem find_of_perm {rows rows' : List (κ × ν)} (hn : (rows.map (·.1)).Nodup)
    (h : rows.Perm rows') (k : κ) : find k rows = find k rows' := by
  have hn' : (rows'.map (·.1)).Nodup := (h.map _).nodup_iff.mp hn
  refine Option.ext fun v => ⟨fun hf => ?_, fun hf => ?_⟩
  · exact find_of_mem hn' (h.mem_iff.mp (mem_of_find hf))
  · exact find_of_mem hn (h.mem_iff.mpr (mem_of_find hf))

theorem write_keys (k : κ) (v : ν) : ∀ rows : List (κ × ν), (write k v rows).map (·.1) =
    if k ∈ rows.map (·.1) then rows.map (·.1) else rows.map (·.1) ++ [k]
  | [] => rfl
  | (k', v') :: rows => by
    by_cases hk : k' = k
    · simp [write, hk]
    · have hk' : ¬ k = k' := fun h => hk h.symm
      simp only [write, if_neg hk, List.map_cons, write_keys k v rows, List.mem_cons, hk', false_or]
      split <;> rfl

/-- A new key comes last. -/
theorem write_of_find_none {k : κ} (v : ν) : ∀ {rows : List (κ × ν)}, find k rows = none →
    write k v rows = rows ++ [(k, v)]
  | [], _ => rfl
  | (k', v') :: rows, h => by
    by_cases hk : k' = k
    · simp [find, hk] at h
    · rw [find, if_neg hk] at h
      rw [write, if_neg hk, write_of_find_none v h, List.cons_append]

theorem distinct_put {t : Table κ ν} (h : t.Distinct) (k : κ) (v : ν) : (t.put k v).Distinct := by
  show ((write k v t.rows).map (·.1)).Nodup
  rw [write_keys]
  split
  · exact h
  · rename_i hk
    exact List.nodup_append.mpr ⟨h, by simp, fun a ha b hb => by
      rw [List.mem_singleton.mp hb]
      exact fun he => hk (he ▸ ha)⟩

/-- Every key reads the value that was written last. -/
theorem get?_put (t : Table κ ν) (k j : κ) (v : ν) :
    (t.put k v).get? j = if k = j then some v else t.get? j := by
  by_cases h : k = j
  · rw [if_pos h, ← h]
    exact get?_put_self t k v
  · rw [if_neg h]
    exact get?_put_of_ne t h v

theorem get?_erase (t : Table κ ν) (k j : κ) :
    (t.erase k).get? j = if k = j then none else t.get? j := by
  by_cases h : k = j
  · rw [if_pos h, ← h]
    exact get?_erase_self t k
  · rw [if_neg h]
    exact get?_erase_of_ne t h

end Table
end FencedLog
