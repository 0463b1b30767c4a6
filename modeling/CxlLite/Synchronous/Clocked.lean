import Mathlib.Data.Nat.Notation
import Mathlib.Tactic.TypeStar

/-!
# Clocked machines under an input stream

One input arrives per cycle. Its asynchronous part is applied by `settle`
before anything is observed in the cycle, and the clock edge at the end of the
cycle is `step`. All observations of a run are made on settled states.
-/

namespace Synchronous

/-- A machine with asynchronous inputs (`settle`) and one clock edge per cycle (`step`). -/
structure Clocked (S I : Type*) where
  settle : S → I → S
  step : S → I → S

namespace Clocked

variable {S I S' I' : Type*} (m : Clocked S I)

/-- The settled state of each cycle. -/
def run (s : S) (inp : ℕ → I) : ℕ → S
  | 0 => m.settle s (inp 0)
  | t + 1 => m.settle (m.step (run s inp t) (inp t)) (inp (t + 1))

@[simp] theorem run_zero (s : S) (inp : ℕ → I) : m.run s inp 0 = m.settle s (inp 0) := rfl

theorem run_succ (s : S) (inp : ℕ → I) (t : ℕ) :
    m.run s inp (t + 1) = m.settle (m.step (m.run s inp t) (inp t)) (inp (t + 1)) := rfl

/-- A state predicate kept by settling and by the clock edge holds in every cycle. -/
theorem run_invariant {P : S → Prop} {s : S} (hs : P s)
    (hsettle : ∀ s i, P s → P (m.settle s i)) (hstep : ∀ s i, P s → P (m.step s i))
    (inp : ℕ → I) (t : ℕ) : P (m.run s inp t) := by
  induction t with
  | zero => exact hsettle s (inp 0) hs
  | succ t ih => exact hsettle _ _ (hstep _ _ ih)

/-- After its first cycle a run goes on as a run of its own. -/
theorem run_shift (s : S) (inp : ℕ → I) (t : ℕ) :
    m.run s inp (t + 1) =
      m.run (m.step (m.settle s (inp 0)) (inp 0)) (fun u => inp (u + 1)) t := by
  induction t with
  | zero => rfl
  | succ t ih => rw [run_succ, ih, run_succ]

/-- Two runs that are in a relation at some time stay in it under the same further inputs,
if settling and the clock edges keep it. -/
theorem run_related {R : S → S → Prop}
    (hsettle : ∀ s s' i, R s s' → R (m.settle s i) (m.settle s' i))
    (hstep : ∀ s s' i, R s s' → R (m.step s i) (m.step s' i)) {s s' : S} {inp inp' : ℕ → I}
    {t t' : ℕ} (h : R (m.run s inp t) (m.run s' inp' t'))
    (hinp : ∀ n, inp (t + n) = inp' (t' + n)) (n : ℕ) :
    R (m.run s inp (t + n)) (m.run s' inp' (t' + n)) := by
  induction n with
  | zero => exact h
  | succ n ih =>
      have hnow := hinp n
      have hnext := hinp (n + 1)
      rw [← Nat.add_assoc, ← Nat.add_assoc] at hnext ⊢
      rw [run_succ, run_succ, ← hnow, ← hnext]
      exact hsettle _ _ _ (hstep _ _ _ ih)

/-- A component of a machine runs as a machine of its own, on the inputs that
its surroundings present to it in each cycle. -/
theorem run_component (m' : Clocked S' I') (f : S → S') (g : S → I → I')
    (hsettle : ∀ s i s₀, f (m.settle s i) = m'.settle (f s) (g s₀ i))
    (hstep : ∀ s i, f (m.step s i) = m'.step (f s) (g s i))
    (s : S) (inp : ℕ → I) (t : ℕ) :
    f (m.run s inp t) = m'.run (f s) (fun u => g (m.run s inp u) (inp u)) t := by
  induction t with
  | zero => exact hsettle s (inp 0) _
  | succ t ih =>
      rw [run_succ, run_succ, ← ih, ← hstep]
      exact hsettle _ _ _

end Clocked

/-- The level `f` has been up from cycle `r`, where it rose, to cycle `t`. -/
structure UpSince (f : ℕ → Bool) (r t : ℕ) : Prop where
  rose : ∀ w, w + 1 = r → f w = false
  up : ∀ w, r ≤ w → w ≤ t → f w = true

theorem UpSince.mono {f : ℕ → Bool} {r t u : ℕ} (h : UpSince f r t) (hut : u ≤ t) :
    UpSince f r u where
  rose := h.rose
  up w h₁ h₂ := h.up w h₁ (Nat.le_trans h₂ hut)

end Synchronous
