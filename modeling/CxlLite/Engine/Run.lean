import CxlLite.Engine.Step

/-!
# Runs of the engine

Reset touches registers only, so the arrays follow their next-value functions
in every cycle, and the registers do so in every cycle that reset leaves alone.
-/

namespace CxlLite.Engine

open Synchronous

variable {p : Params}

namespace State

variable (s : State p) (i : Inputs p)

@[simp] theorem reset_cache : s.reset.cache = s.cache := rfl
@[simp] theorem reset_mem : s.reset.mem = s.mem := rfl
@[simp] theorem reset_slot : s.reset.slot = s.slot := rfl
@[simp] theorem reset_biState : s.reset.biState = .idle := rfl
@[simp] theorem reset_bias : s.reset.bias = fun _ => false := rfl
@[simp] theorem reset_flushState : s.reset.flushState = .idle := rfl
@[simp] theorem reset_respActive : s.reset.respActive = false := rfl

@[simp] theorem settle_cache : (s.settle i).cache = s.cache := by
  rw [settle]; split <;> rfl

@[simp] theorem settle_mem : (s.settle i).mem = s.mem := by
  rw [settle]; split <;> rfl

@[simp] theorem settle_slot : (s.settle i).slot = s.slot := by
  rw [settle]; split <;> rfl

@[simp] theorem step_cache : (s.step i).cache = s.cacheNext i := by
  rw [step]; split <;> rfl

@[simp] theorem step_mem : (s.step i).mem = s.memNext i := by
  rw [step]; split <;> rfl

@[simp] theorem step_slot : (s.step i).slot = s.slotNext i := by
  rw [step]; split <;> rfl

variable {i}

theorem settle_of_rstN (h : i.rstN = true) : s.settle i = s := if_pos h

theorem settle_of_reset (h : i.rstN = false) : s.settle i = s.reset :=
  if_neg (by simp [h])

theorem step_of_rstN (h : i.rstN = true) : s.step i = s.edge i := if_pos h

theorem step_of_reset (h : i.rstN = false) : s.step i = (s.edge i).reset :=
  if_neg (by simp [h])

end State

section Fields

variable (inp : ℕ → Inputs p) (t : ℕ)

theorem run_zero : run inp 0 = (powerOn p).settle (inp 0) := rfl

theorem run_succ : run inp (t + 1) = ((run inp t).step (inp t)).settle (inp (t + 1)) := rfl

theorem run_cache_succ : (run inp (t + 1)).cache = (run inp t).cacheNext (inp t) := by
  simp [run_succ]

theorem run_mem_succ : (run inp (t + 1)).mem = (run inp t).memNext (inp t) := by
  simp [run_succ]

theorem run_slot_succ : (run inp (t + 1)).slot = (run inp t).slotNext (inp t) := by
  simp [run_succ]

variable {inp t}

/-- Between two cycles without reset the engine makes one ordinary clock edge. -/
theorem run_succ_of_rstN (h₀ : (inp t).rstN = true) (h₁ : (inp (t + 1)).rstN = true) :
    run inp (t + 1) = (run inp t).edge (inp t) := by
  rw [run_succ, State.settle_of_rstN _ h₁, State.step_of_rstN _ h₀]

/-- A cycle in reset shows the reset values. -/
theorem run_eq_reset (h : (inp t).rstN = false) : ∃ s, run inp t = State.reset s := by
  cases t with
  | zero => exact ⟨_, State.settle_of_reset _ h⟩
  | succ t => exact ⟨_, State.settle_of_reset _ h⟩

/-- Right after a cycle in reset the registers still hold their reset values. -/
theorem run_succ_eq_reset (h : (inp t).rstN = false) :
    ∃ s, run inp (t + 1) = State.reset s := by
  rw [run_succ, State.step_of_reset _ h]
  cases h₁ : (inp (t + 1)).rstN with
  | true => exact ⟨_, State.settle_of_rstN _ h₁⟩
  | false => exact ⟨_, State.settle_of_reset _ h₁⟩

/-- What no reset state shows is seen in released cycles only. -/
theorem rstN_of_not_reset {P : State p → Prop} (hP : ∀ s : State p, ¬ P s.reset)
    (h : P (run inp t)) : (inp t).rstN = true := by
  cases hr : (inp t).rstN with
  | true => rfl
  | false =>
      obtain ⟨s, hs⟩ := run_eq_reset hr
      rw [hs] at h
      exact absurd h (hP s)

theorem rstN_of_not_reset_succ {P : State p → Prop} (hP : ∀ s : State p, ¬ P s.reset)
    (h : P (run inp (t + 1))) : (inp t).rstN = true := by
  cases hr : (inp t).rstN with
  | true => rfl
  | false =>
      obtain ⟨s, hs⟩ := run_succ_eq_reset hr
      rw [hs] at h
      exact absurd h (hP s)

end Fields

section Discipline

/-- `rst_n` is released once and never asserted again. -/
def ResetOnce (inp : ℕ → Inputs p) : Prop :=
  ∀ t, (inp t).rstN = true → (inp (t + 1)).rstN = true

/-- The host presents a request that the engine does not take in this cycle. -/
def Stalled (inp : ℕ → Inputs p) (t : ℕ) : Prop :=
  (inp t).m2sValid = true ∧ (run inp t).m2sReady (inp t) = false

instance (inp : ℕ → Inputs p) (t : ℕ) : Decidable (Stalled inp t) :=
  inferInstanceAs (Decidable (_ ∧ _))

/-- A stalled host keeps `m2s_valid` and `m2s_addr`. -/
def HoldsAddress (inp : ℕ → Inputs p) : Prop :=
  ∀ t, Stalled inp t →
    (inp (t + 1)).m2sValid = true ∧ (inp (t + 1)).m2sAddr = (inp t).m2sAddr

/-- A stalled host keeps the whole request. -/
def HoldsRequest (inp : ℕ → Inputs p) : Prop :=
  ∀ t, Stalled inp t →
    (inp (t + 1)).m2sValid = true ∧ (inp (t + 1)).m2sAddr = (inp t).m2sAddr ∧
      (inp (t + 1)).m2sIsWrite = (inp t).m2sIsWrite ∧
      (inp (t + 1)).m2sWdata = (inp t).m2sWdata ∧ (inp (t + 1)).m2sTag = (inp t).m2sTag

theorem HoldsRequest.holdsAddress {inp : ℕ → Inputs p} (h : HoldsRequest inp) :
    HoldsAddress inp := fun t ht => ⟨(h t ht).1, (h t ht).2.1⟩

end Discipline

section Accept

variable {s : State p} {i : Inputs p}

theorem accept_iff :
    s.acceptThisCycle i = true ↔
      i.m2sValid = true ∧ (s.slot i.m2sTag).valid = false ∧ s.biState = .idle ∧
        s.bias i.m2sAddr = false ∧ s.flushState = .idle ∧ s.needEvictWriteback i = false := by
  simp only [State.acceptThisCycle, State.m2sReady, State.biasQueryRdData, Bool.and_eq_true,
    Bool.not_eq_true', beq_iff_eq]
  tauto

theorem slot_free_of_accept (h : s.acceptThisCycle i = true) :
    (s.slot i.m2sTag).valid = false := (accept_iff.mp h).2.1

theorem biState_of_accept (h : s.acceptThisCycle i = true) : s.biState = .idle :=
  (accept_iff.mp h).2.2.1

theorem bias_of_accept (h : s.acceptThisCycle i = true) : s.bias i.m2sAddr = false :=
  (accept_iff.mp h).2.2.2.1

theorem flushState_of_accept (h : s.acceptThisCycle i = true) : s.flushState = .idle :=
  (accept_iff.mp h).2.2.2.2.1

theorem flush_iff : s.doFlushWriteThisCycle = true ↔ s.flushState = .active := by
  rw [State.doFlushWriteThisCycle, beq_iff_eq]

theorem not_flush_of_idle (h : s.flushState = .idle) : s.doFlushWriteThisCycle = false := by
  rw [State.doFlushWriteThisCycle, h]
  rfl

/-- The flush write and an acceptance never share a cycle. -/
theorem not_flush_of_accept (h : s.acceptThisCycle i = true) :
    s.doFlushWriteThisCycle = false := not_flush_of_idle (flushState_of_accept h)

theorem wantFlush_iff :
    s.wantFlush i = true ↔
      s.flushState = .idle ∧ s.biState = .idle ∧ s.bias i.m2sAddr = false ∧
        i.m2sValid = true ∧ s.needEvictWriteback i = true := by
  simp only [State.wantFlush, State.biasQueryRdData, Bool.and_eq_true, Bool.not_eq_true',
    beq_iff_eq, and_assoc]

/-- A request stalls until its line has been written back. -/
theorem not_ready_of_need (h : s.needEvictWriteback i = true) : s.m2sReady i = false := by
  simp [State.m2sReady, h]

theorem not_ready_of_flush (h : s.doFlushWriteThisCycle = true) : s.m2sReady i = false := by
  simp [State.m2sReady, flush_iff.mp h]

theorem not_accept_of_not_ready (h : s.m2sReady i = false) : s.acceptThisCycle i = false := by
  rw [State.acceptThisCycle, h, Bool.and_false]

end Accept

section Events

variable (inp : ℕ → Inputs p)

/-- A request is accepted in cycle `t`. -/
def accepts (t : ℕ) : Bool := (run inp t).acceptThisCycle (inp t)

/-- The offered response is consumed in cycle `t`. -/
def consumes (t : ℕ) : Bool := (run inp t).respConsumedThisCycle (inp t)

/-- A request with tag `g` is accepted in cycle `t`. -/
def AcceptsTag (g : p.Tag) (t : ℕ) : Prop := accepts inp t = true ∧ (inp t).m2sTag = g

/-- The response of tag `g` is consumed in cycle `t`. -/
def ConsumesTag (g : p.Tag) (t : ℕ) : Prop := consumes inp t = true ∧ (run inp t).s2mTag = g

end Events

section Demonstration

/-- The parameter defaults of the module. -/
def defaultParams : Params where
  addrW := 8
  dataW := 32
  tagW := 4
  readExtraLatency := 3
  cacheIdxW := 4
  one_le_cacheIdxW := Nat.succ_pos 3
  cacheIdxW_lt := by omega

/-- Ports of a released engine on which nothing is presented. -/
def idleInputs : Inputs defaultParams where
  rstN := true
  m2sValid := false
  m2sIsWrite := false
  m2sAddr := 0
  m2sTag := 0
  m2sWdata := 0
  s2mReady := false
  biasWrEn := false
  biasAddr := 0
  biasWrData := false
  biReqReady := false
  biRspValid := false
  cacheBypassEn := false

end Demonstration

end CxlLite.Engine
