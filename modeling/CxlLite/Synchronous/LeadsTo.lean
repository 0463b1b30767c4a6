import Mathlib.Data.Nat.Notation
import Mathlib.Order.WellFounded

/-!
# Leads-to

`P` leads to `Q` when every cycle with `P` is followed, at once or later, by a
cycle with `Q`. A variant that falls as long as `P` goes on proves it.
-/

namespace Synchronous

/-- Every cycle with `P` has a cycle with `Q` at or after it. -/
def LeadsTo (P Q : ℕ → Prop) : Prop := ∀ t, P t → ∃ u, t ≤ u ∧ Q u

namespace LeadsTo

variable {P Q R : ℕ → Prop}

theorem refl (P : ℕ → Prop) : LeadsTo P P := by
  intro t ht
  exact ⟨t, Nat.le_refl t, ht⟩

theorem trans (hPQ : LeadsTo P Q) (hQR : LeadsTo Q R) : LeadsTo P R := by
  intro t ht
  obtain ⟨u, htu, hu⟩ := hPQ t ht
  obtain ⟨v, huv, hv⟩ := hQR u hu
  exact ⟨v, Nat.le_trans htu huv, hv⟩

instance : Trans LeadsTo LeadsTo LeadsTo := ⟨trans⟩

/-- A cycle with `P` is followed by one with `Q`, or by one with `P` and a smaller variant. -/
theorem of_variant {α : Type*} [LT α] [WellFoundedLT α] (v : ℕ → α)
    (h : ∀ t, P t → Q (t + 1) ∨ P (t + 1) ∧ v (t + 1) < v t) : LeadsTo P Q := by
  intro t ht
  induction hv : v t using WellFoundedLT.induction generalizing t with
  | ind a ih =>
      subst hv
      rcases h t ht with hQ | ⟨hP, hlt⟩
      · exact ⟨t + 1, Nat.le_succ t, hQ⟩
      · obtain ⟨u, htu, hu⟩ := ih _ hlt (t + 1) hP rfl
        exact ⟨u, Nat.le_trans (Nat.le_succ t) htu, hu⟩

/-- Stages that lead to each other in order. -/
theorem chain {S : ℕ → ℕ → Prop} {n : ℕ} (h : ∀ k, k < n → LeadsTo (S k) (S (k + 1))) :
    LeadsTo (S 0) (S n) := by
  induction n with
  | zero => exact refl _
  | succ n ih =>
      apply trans
      · apply ih
        intro k hk
        exact h k (Nat.lt_succ_of_lt hk)
      · exact h n (Nat.lt_succ_self n)

end LeadsTo

end Synchronous
