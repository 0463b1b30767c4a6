import Mathlib.Algebra.BigOperators.Intervals
import Mathlib.Algebra.Order.BigOperators.Group.Finset

/-!
# Progress by a debt that only shrinks

Each cycle pays its work off the debt. Over a stretch of cycles the debt falls
unless no work was done at all, and a sequence of rounds in which the debt
falls has to end.
-/

namespace Synchronous

variable {debt work : ℕ → ℕ} {a b : ℕ}

theorem debt_add_work (hab : a ≤ b)
    (h : ∀ t, a ≤ t → t < b → debt (t + 1) + work t ≤ debt t) :
    debt b + ∑ t ∈ Finset.Ico a b, work t ≤ debt a := by
  induction b, hab using Nat.le_induction with
  | base => simp
  | succ b hab ih =>
      have hstep := h b hab (Nat.lt_succ_self b)
      calc
        debt (b + 1) + ∑ t ∈ Finset.Ico a (b + 1), work t
            = debt (b + 1) + work b + ∑ t ∈ Finset.Ico a b, work t := by
              rw [Finset.sum_Ico_succ_top hab, add_assoc, add_comm (work b)]
        _ ≤ debt b + ∑ t ∈ Finset.Ico a b, work t := Nat.add_le_add_right hstep _
        _ ≤ debt a := by
              apply ih
              intro t h₁ h₂
              exact h t h₁ (Nat.lt_succ_of_lt h₂)

/-- If the debt has not fallen, no cycle did any work. -/
theorem work_eq_zero_of_debt_le (hle : debt a ≤ debt b)
    (h : ∀ t, a ≤ t → t < b → debt (t + 1) + work t ≤ debt t) {t : ℕ} (h₁ : a ≤ t) (h₂ : t < b) :
    work t = 0 := by
  have hsum := debt_add_work (h₁.trans h₂.le) h
  have hone : work t ≤ ∑ t ∈ Finset.Ico a b, work t :=
    Finset.single_le_sum (f := work) (fun _ _ => Nat.zero_le _) (Finset.mem_Ico.mpr ⟨h₁, h₂⟩)
  omega

/-- A cycle between the first round and round `k` lies in one of the rounds. -/
theorem exists_round {start : ℕ → ℕ} {t k : ℕ} (h₀ : start 0 ≤ t) (hk : t < start k) :
    ∃ j, start j ≤ t ∧ t < start (j + 1) := by
  induction k with
  | zero => omega
  | succ k ih =>
      by_cases h : t < start k
      · exact ih h
      · exact ⟨k, Nat.le_of_not_lt h, hk⟩

/-- The debt cannot fall in every round. -/
theorem exists_round_of_descent {start : ℕ → ℕ} {goal : ℕ → Prop}
    (h : ∀ k, goal k ∨ debt (start (k + 1)) < debt (start k)) : ∃ k, goal k := by
  by_contra hnone
  have hfall : ∀ k, debt (start k) + k ≤ debt (start 0) := by
    intro k
    induction k with
    | zero => exact le_rfl
    | succ k ih =>
        have hlt := (h k).resolve_left fun hk => hnone ⟨k, hk⟩
        omega
  have := hfall (debt (start 0) + 1)
  omega

end Synchronous
