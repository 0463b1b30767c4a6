import CxlLite.Engine.Residency
import CxlLite.Shim.Run

/-!
# Host-Biased lines

The accept gate reads the bias table before the edge on which a debug write
changes it. A `BIAS_SET` of 1 for the very address that is allocated on that
edge therefore leaves a Host-Biased line behind.
-/

namespace CxlLite.Shim

open Engine

variable {q : ShimParams}

section Statements

variable (x : Undefined q) (bus : ℕ → Bus)

/-- `BIAS_SET` of 1 is only written for an address that the cache does not hold. -/
def SetsNonresident : Prop :=
  ∀ t, (bus t).writeBias = true → (bus t).writeBit = true →
    (run x bus t).engine.cacheHit (run x bus t).biasAddr = false

/-- `BIAS_SET` of 1 is written in the cycle in which a request for the same
address is accepted and allocated, and reset does not follow. -/
def SetCollides (t : ℕ) : Prop :=
  (bus t).writeBias = true ∧ (bus t).writeBit = true ∧ accepts x bus t = true ∧
    (run x bus t).cacheBypassEn = false ∧ (run x bus t).reqAddr = (run x bus t).biasAddr ∧
    (bus (t + 1)).rstn = true

end Statements

variable {x : Undefined q} {bus : ℕ → Bus}

theorem linesDeviceBiased_of_reset {t : ℕ} (h : ∃ s, run x bus t = State.reset s) :
    (run x bus t).engine.LinesDeviceBiased := by
  obtain ⟨s, hs⟩ := h
  rw [hs]
  exact fun _ _ => rfl

/-- When `BIAS_SET` of 1 is kept away from resident addresses, every valid line
is Device-Biased in every cycle if and only if no `BIAS_SET` of 1 coincides with
the allocation of its address. -/
theorem linesDeviceBiased_run_iff (h : SetsNonresident x bus) :
    (∀ t, (run x bus t).engine.LinesDeviceBiased) ↔ ∀ t, ¬ SetCollides x bus t := by
  constructor
  · rintro hall t ⟨hen, hdata, hacc, hby, haddr, h₁⟩
    have h₀ := rstn_of_pendingValid (accepts_iff.mp hacc).1
    have hnext := hall (t + 1)
    rw [run_succ_of_rstn h₀ h₁, State.edge_engine h₀] at hnext
    exact not_linesDeviceBiased_edge (i := ports x bus t) hen hdata hacc hby haddr hnext
  · intro hno t
    induction t with
    | zero =>
        cases h₀ : (bus 0).rstn with
        | false =>
            apply linesDeviceBiased_of_reset
            exact run_eq_reset h₀
        | true =>
            rw [run_zero, State.settle_of_rstn h₀]
            intro _ _
            rfl
    | succ t ih =>
        rcases run_succ_cases t with hreset | ⟨h₀, h₁, hedge⟩
        · exact linesDeviceBiased_of_reset hreset
        · rw [hedge, State.edge_engine h₀]
          apply linesDeviceBiased_edge ih
          · intro hen hdata
            exact cacheHit_eq_false_iff.mp (h t hen hdata)
          · rintro ⟨hen, hdata, hacc, hby, haddr⟩
            exact hno t ⟨hen, hdata, hacc, hby, haddr, h₁⟩

section Demonstration

set_option maxRecDepth 4000

/-- Address 0 is fired and allocated, and then address 5 is made Host-Biased. -/
def biasedAfterAccepted : ℕ → Bus := script [(addrReqFire, 0), (addrBiasAddr, 5), (addrBiasSet, 1)]

theorem biasedAfterAccepted_set : ∀ t, (biasedAfterAccepted t).writeBias = true → t = 2 := by
  intro t
  by_cases ht : t < 3
  · revert t
    decide
  · rw [biasedAfterAccepted, script_of_length_le (Nat.le_of_not_lt ht)]
    intro h
    cases h

theorem linesDeviceBiased_run_biasedAfterAccepted :
    (run powerOnZero biasedAfterAccepted 4).engine.LinesDeviceBiased := by
  apply (linesDeviceBiased_run_iff ?_).mpr
  · intro u hcol
    obtain rfl := biasedAfterAccepted_set u hcol.1
    exact absurd hcol.2.2.1 (by decide)
  · intro u hen _
    obtain rfl := biasedAfterAccepted_set u hen
    decide

/-- Address 0 is fired, and `BIAS_SET` of 1 for it arrives as it is accepted. -/
def biasedWhileAccepted : ℕ → Bus := script [(addrReqFire, 0), (addrBiasSet, 1)]

theorem setsNonresident_biasedWhileAccepted :
    SetsNonresident powerOnZero biasedWhileAccepted := by
  intro t
  by_cases ht : t < 2
  · revert t
    decide
  · rw [biasedWhileAccepted, script_of_length_le (Nat.le_of_not_lt ht)]
    intro h
    cases h

/-- The line filled by the request is Host-Biased. -/
theorem not_linesDeviceBiased_run :
    ¬ ∀ (x : Undefined defaultShim) (bus : ℕ → Bus), SetsNonresident x bus →
      ∀ t, (run x bus t).engine.LinesDeviceBiased := by
  intro h
  have hline := h powerOnZero biasedWhileAccepted setsNonresident_biasedWhileAccepted 2 0
    (by decide)
  exact absurd hline (by decide)

end Demonstration

end CxlLite.Shim
