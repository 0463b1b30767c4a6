import CxlLite.Engine.Memory

/-!
# Cycles with bypass high

A flush is decided in one cycle and carried out in the next. The decision
requires bypass to be low, but the flush write does not look at it again.
-/

namespace CxlLite.Engine

variable {p : Params}

section Statements

variable (inp : ℕ → Inputs p)

/-- The cycle `t` keeps every line and writes nothing back, and the backing
memory changes at most at the address of a bypassed write that is accepted. -/
structure FreezesCache (t : ℕ) : Prop where
  cache : (run inp (t + 1)).cache = (run inp t).cache
  flush : (run inp t).doFlushWriteThisCycle = false
  mem : ∀ a, (run inp (t + 1)).mem a ≠ (run inp t).mem a →
    a = (inp t).m2sAddr ∧ accepts inp t = true ∧ (inp t).m2sIsWrite = true

/-- Bypass goes high in the cycle after one in which a flush was decided. -/
def BypassesFlush (t : ℕ) : Prop :=
  (inp t).rstN = true ∧ (run inp t).wantFlush (inp t) = true ∧ (inp (t + 1)).rstN = true ∧
    (inp (t + 1)).cacheBypassEn = true

end Statements

variable {inp : ℕ → Inputs p} {t : ℕ}

/-- A flush is active exactly in the cycle after it was decided. -/
theorem flushState_succ_iff :
    (run inp (t + 1)).flushState = .active ↔
      (inp t).rstN = true ∧ (run inp t).wantFlush (inp t) = true ∧
        (inp (t + 1)).rstN = true := by
  constructor
  · intro h
    exact ⟨rstN_of_active_succ h, wantFlush_of_active h, rstN_of_active h⟩
  · rintro ⟨h₀, hw, h₁⟩
    rw [run_succ_of_rstN h₀ h₁]
    simp [State.edge, State.flushStateNext, (wantFlush_iff.mp hw).1, hw]

theorem freezesCache_of_bypass (hb : (inp t).cacheBypassEn = true)
    (hflush : (run inp t).doFlushWriteThisCycle = false) : FreezesCache inp t := by
  constructor
  · rw [run_cache_succ, cacheNext_of_bypass hflush hb]
  · exact hflush
  · intro a hne
    rw [run_mem_succ] at hne
    cases ha : accepts inp t with
    | false =>
        rw [(storage_of_idle hflush ha).2] at hne
        exact absurd rfl hne
    | true =>
        cases hw : (inp t).m2sIsWrite with
        | false =>
            rw [memNext_of_read hflush hw] at hne
            exact absurd rfl hne
        | true =>
            rw [memNext_of_bypass_write ha hb hw] at hne
            refine ⟨?_, rfl, rfl⟩
            by_contra haddr
            exact hne (Function.update_of_ne haddr _ _)

/-- Every cycle with bypass high freezes the cache if and only if bypass never
goes high right after a flush was decided. -/
theorem bypass_freezes_iff :
    (∀ t, (inp t).cacheBypassEn = true → FreezesCache inp t) ↔ ∀ t, ¬ BypassesFlush inp t := by
  constructor
  · rintro hall t ⟨h₀, hw, h₁, hb⟩
    have hactive := flushState_succ_iff.mpr ⟨h₀, hw, h₁⟩
    have hno := (hall (t + 1) hb).flush
    rw [flush_iff.mpr hactive] at hno
    cases hno
  · intro hno t hb
    apply freezesCache_of_bypass hb
    rw [Bool.eq_false_iff]
    intro hflush
    obtain ⟨u, rfl, _⟩ := exists_wantFlush hflush
    obtain ⟨h₀, hw, h₁⟩ := flushState_succ_iff.mp (flush_iff.mp hflush)
    exact hno u ⟨h₀, hw, h₁, hb⟩

section Demonstration

set_option maxRecDepth 4000

/-- A write of 7 to address 0 and a read of address 16, which evicts it. Bypass
goes high in the cycle in which the flush is carried out. -/
def bypassedFlush : ℕ → Inputs defaultParams
  | 0 => { idleInputs with m2sValid := true, m2sIsWrite := true, m2sWdata := 7 }
  | 1 => { idleInputs with m2sValid := true, m2sAddr := 16, m2sTag := 1 }
  | _ => { idleInputs with m2sValid := true, m2sAddr := 16, m2sTag := 1, cacheBypassEn := true }

/-- The flush is carried out with bypass high. -/
theorem not_bypass_freezes :
    ¬ ∀ (inp : ℕ → Inputs defaultParams) (t : ℕ), (inp t).cacheBypassEn = true →
      FreezesCache inp t := by
  intro h
  have hno := (h bypassedFlush 2 rfl).flush
  exact absurd hno (by decide)

end Demonstration

end CxlLite.Engine
