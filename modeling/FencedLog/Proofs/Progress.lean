/-
# Progress by rank

Something goes on in stages. Each stage has a rank, and something that it needs
next, which comes again and again. What is needed makes the rank smaller, and
nothing makes it larger. So it comes to its end.

Key theorem: `ends_of_ranked`.
-/

namespace FencedLog

/-- What goes through stages of falling rank comes to its end, and is in a stage
until then. The induction is on the rank, and for the same rank on how long it
waits for what it needs next. -/
theorem ends_of_ranked {κ : Type} {stage : Nat → Nat → κ → Prop} {ends : Nat → Prop} {meets : κ → Nat → Prop}
    (again : ∀ k n, ∃ m, n ≤ m ∧ meets k m)
    (next : ∀ n r k, stage n r k → ends n ∨ ∃ r' k', stage (n + 1) r' k' ∧
      (r' < r ∨ (r' = r ∧ k' = k ∧ ¬ meets k n)))
    {n r : Nat} {k : κ} (h : stage n r k) :
    ∃ m, n ≤ m ∧ ends m ∧ ∀ j, n ≤ j → j ≤ m → ∃ r k, stage j r k := by
  induction r using Nat.strongRecOn generalizing n k with
  | _ r hless =>
    obtain ⟨m, hm, hmeets⟩ := again k n
    obtain ⟨d, rfl⟩ := Nat.exists_eq_add_of_le hm
    clear hm
    -- the end of what follows is the end
    have later : ∀ {n}, stage n r k → (∃ m, n + 1 ≤ m ∧ ends m ∧
        ∀ j, n + 1 ≤ j → j ≤ m → ∃ r k, stage j r k) →
          ∃ m, n ≤ m ∧ ends m ∧ ∀ j, n ≤ j → j ≤ m → ∃ r k, stage j r k := by
      rintro n hn ⟨m, hm, hends, hstages⟩
      refine ⟨m, by omega, hends, fun j hj hjm => ?_⟩
      rcases Nat.lt_or_eq_of_le hj with hlt | rfl
      · exact hstages j hlt hjm
      · exact ⟨r, k, hn⟩
    induction d generalizing n with
    | zero =>
      rcases next n r k h with hends | ⟨r', k', h', hlt | ⟨-, -, hno⟩⟩
      · exact ⟨n, Nat.le_refl n, hends, fun j hj hjn => ⟨r, k, Nat.le_antisymm hj hjn ▸ h⟩⟩
      · exact later h (hless r' hlt h')
      · exact absurd hmeets hno
    | succ d ih =>
      rcases next n r k h with hends | ⟨r', k', h', hlt | ⟨rfl, rfl, -⟩⟩
      · exact ⟨n, Nat.le_refl n, hends, fun j hj hjn => ⟨r, k, Nat.le_antisymm hj hjn ▸ h⟩⟩
      · exact later h (hless r' hlt h')
      · rw [Nat.add_succ, ← Nat.succ_add] at hmeets
        exact later h (ih h' hmeets)

end FencedLog
