import CxlLite.Engine.Slots
import CxlLite.Shim.Step

/-!
# Runs of the shim

The engine instance runs as an engine of its own on the inputs that the shim
presents. The pending register is a latch between a completed `REQ_FIRE` and
the acceptance of the request by the engine.
-/

namespace CxlLite.Shim

open Engine Synchronous

variable {q : ShimParams}

namespace State

variable {s : State q} {b : Bus}

@[simp] theorem reset_pendingValid : s.reset.pendingValid = false := rfl

theorem settle_of_rstn (h : b.rstn = true) : s.settle b = s := if_pos h

theorem settle_of_reset (h : b.rstn = false) : s.settle b = s.reset :=
  if_neg (by simp [h])

theorem step_of_rstn (h : b.rstn = true) : s.step b = s.edge b := if_pos h

/-- A clock edge in reset leaves a state in reset. -/
theorem step_of_reset (h : b.rstn = false) :
    s.step b = State.reset { s with engine := s.engine.edge (s.engineInputs b) } := by
  rw [step, if_neg (by simp [h]), Engine.State.step_of_reset _ h]
  rfl

theorem settle_engine (s₀ : State q) :
    (s.settle b).engine = s.engine.settle (s₀.engineInputs b) := by
  rw [settle, Engine.State.settle]
  split
  case isTrue h => exact (if_pos h).symm
  case isFalse h => exact (if_neg h).symm

theorem step_engine : (s.step b).engine = s.engine.step (s.engineInputs b) := by
  rw [step]
  split <;> rfl

theorem edge_engine (h : b.rstn = true) :
    (s.edge b).engine = s.engine.edge (s.engineInputs b) :=
  Engine.State.step_of_rstN (i := s.engineInputs b) _ h

end State

section Runs

variable (x : Undefined q) (bus : ℕ → Bus)

/-- The inputs of the engine instance in each cycle. -/
def ports (t : ℕ) : Inputs q.engine := (run x bus t).engineInputs (bus t)

theorem run_zero : run x bus 0 = (powerOn x).settle (bus 0) := rfl

theorem run_succ (t : ℕ) :
    run x bus (t + 1) = ((run x bus t).step (bus t)).settle (bus (t + 1)) := rfl

/-- The engine instance runs as an engine of its own. -/
theorem run_engine (t : ℕ) : (run x bus t).engine = Engine.run (ports x bus) t :=
  (machine q).run_component (Engine.machine q.engine) State.engine State.engineInputs
    (fun _ _ => State.settle_engine) (fun _ _ => State.step_engine) (powerOn x) bus t

variable {x bus} {t : ℕ}

theorem run_succ_of_rstn (h₀ : (bus t).rstn = true) (h₁ : (bus (t + 1)).rstn = true) :
    run x bus (t + 1) = (run x bus t).edge (bus t) := by
  rw [run_succ, State.settle_of_rstn h₁, State.step_of_rstn h₀]

theorem run_eq_reset (h : (bus t).rstn = false) : ∃ s, run x bus t = State.reset s := by
  cases t with
  | zero => exact ⟨_, State.settle_of_reset h⟩
  | succ t => exact ⟨_, State.settle_of_reset h⟩

theorem run_succ_eq_reset (h : (bus t).rstn = false) :
    ∃ s, run x bus (t + 1) = State.reset s := by
  rw [run_succ, State.step_of_reset h]
  cases h₁ : (bus (t + 1)).rstn with
  | true => exact ⟨_, State.settle_of_rstn h₁⟩
  | false => exact ⟨_, State.settle_of_reset h₁⟩

/-- After a cycle the shim shows its reset values or has made an ordinary clock edge. -/
theorem run_succ_cases (t : ℕ) :
    (∃ s, run x bus (t + 1) = State.reset s) ∨
      (bus t).rstn = true ∧ (bus (t + 1)).rstn = true ∧
        run x bus (t + 1) = (run x bus t).edge (bus t) := by
  cases h₁ : (bus (t + 1)).rstn with
  | false => exact Or.inl (run_eq_reset h₁)
  | true =>
      cases h₀ : (bus t).rstn with
      | false => exact Or.inl (run_succ_eq_reset h₀)
      | true => exact Or.inr ⟨rfl, rfl, run_succ_of_rstn h₀ h₁⟩

theorem rstn_of_pendingValid (h : (run x bus t).pendingValid = true) : (bus t).rstn = true := by
  by_contra hr
  obtain ⟨s, hs⟩ := run_eq_reset (x := x) (by simpa using hr : (bus t).rstn = false)
  simp [hs] at h

end Runs

section Events

variable (x : Undefined q) (bus : ℕ → Bus)

/-- `rstn` is released once and never asserted again. -/
def ResetOnce (bus : ℕ → Bus) : Prop := ∀ t, (bus t).rstn = true → (bus (t + 1)).rstn = true

/-- A `REQ_FIRE` write completes in cycle `t`. -/
def fires (t : ℕ) : Bool :=
  (bus t).rstn && (bus t).writeFire && !(run x bus t).avsWaitrequest (bus t)

/-- The engine accepts the pending request in cycle `t`. -/
def accepts (t : ℕ) : Bool := (run x bus t).pendingValid && (run x bus t).m2sReady (bus t)

theorem accepts_eq (t : ℕ) : accepts x bus t = Engine.accepts (ports x bus) t := by
  rw [accepts, Engine.accepts, State.acceptThisCycle, ← run_engine]
  rfl

variable {x bus} {t : ℕ}

theorem fires_iff :
    fires x bus t = true ↔
      (bus t).rstn = true ∧ (bus t).writeFire = true ∧ (run x bus t).pendingValid = false := by
  simp only [fires, State.avsWaitrequest, Bool.and_eq_true, Bool.not_eq_true', and_assoc]
  refine and_congr_right fun _ => and_congr_right fun h => ?_
  rw [h, Bool.true_and]

theorem accepts_iff :
    accepts x bus t = true ↔
      (run x bus t).pendingValid = true ∧ (run x bus t).m2sReady (bus t) = true := by
  simp [accepts]

theorem not_fires_of_pendingValid (h : (run x bus t).pendingValid = true) :
    fires x bus t = false :=
  Bool.eq_false_iff.mpr fun hf => by simp [(fires_iff.mp hf).2.2] at h

end Events

section Pending

variable (x : Undefined q) (bus : ℕ → Bus)

/-- A completed `REQ_FIRE` reaches the next cycle in the pending register. -/
def Loads (t : ℕ) : Prop := fires x bus t = true ∧ (bus (t + 1)).rstn = true

/-- The pending request leaves its register, by acceptance or by reset. -/
def Drops (t : ℕ) : Prop :=
  (run x bus t).pendingValid = true ∧
    (accepts x bus t = true ∨ (bus (t + 1)).rstn = false)

variable {x bus} {t : ℕ}

theorem edge_pendingValid_iff (h : (bus t).rstn = true) :
    ((run x bus t).pendingValidNext (bus t)) = true ↔
      fires x bus t = true ∨ (run x bus t).pendingValid = true ∧ accepts x bus t = false := by
  rw [State.pendingValidNext, accepts, fires, State.avsWaitrequest]
  cases hp : (run x bus t).pendingValid <;> cases hw : (bus t).writeFire <;>
    cases hm : (run x bus t).m2sReady (bus t) <;> simp [h]

/-- The pending register is set by a completed `REQ_FIRE` and cleared by
acceptance or reset. -/
theorem pending_latch :
    Latch (fun t => (run x bus t).pendingValid = true) (Loads x bus) (Drops x bus) where
  init h := by
    have hrst := rstn_of_pendingValid h
    rw [run_zero, State.settle_of_rstn hrst] at h
    cases h
  set_free t h := by simp [(fires_iff.mp h.1).2.2]
  clear_held t h := h.1
  next t := by
    cases h₁ : (bus (t + 1)).rstn with
    | false =>
        obtain ⟨s, hs⟩ := run_eq_reset (x := x) h₁
        simp [hs, Loads, Drops, h₁]
    | true =>
        cases h₀ : (bus t).rstn with
        | false =>
            obtain ⟨s, hs⟩ := run_eq_reset (x := x) h₀
            obtain ⟨s', hs'⟩ := run_succ_eq_reset (x := x) h₀
            simp [hs, hs', Loads, fires, h₀]
        | true =>
            rw [run_succ_of_rstn h₀ h₁]
            refine (edge_pendingValid_iff h₀).trans ?_
            simp only [Loads, Drops, h₁, Bool.true_eq_false, or_false, and_true]
            cases accepts x bus t <;> simp

/-- While a request waits, its register holds the tag and type of its `REQ_FIRE`. -/
theorem pending_of_open {f : ℕ} (h : Open (Loads x bus) (Drops x bus) f t) :
    (run x bus t).pendingTag = (bus f).writeTag q ∧
      (run x bus t).pendingIsWrite = (bus f).writeBit := by
  induction t with
  | zero => exact absurd h.1 (Nat.not_lt_zero f)
  | succ t ih =>
      have hpend : (run x bus (t + 1)).pendingValid = true :=
        (pending_latch.held_iff_open (t + 1)).mpr ⟨f, h⟩
      have h₁ := rstn_of_pendingValid hpend
      rcases open_succ_iff.mp h with ⟨rfl, hf⟩ | ⟨hopen, _, _⟩
      · obtain ⟨h₀, hw, hfree⟩ := fires_iff.mp hf.1
        rw [run_succ_of_rstn h₀ h₁]
        simp [State.edge, State.pendingTagNext, State.pendingIsWriteNext, hw, hfree]
      · have hheld : (run x bus t).pendingValid = true :=
          (pending_latch.held_iff_open t).mpr ⟨f, hopen⟩
        rw [run_succ_of_rstn (rstn_of_pendingValid hheld) h₁]
        simp only [State.edge, State.pendingTagNext, State.pendingIsWriteNext, hheld,
          Bool.not_true, Bool.and_false, Bool.false_eq_true, if_false]
        exact ih hopen

end Pending

section Demonstration

/-- The parameter defaults of the module. -/
def defaultShim : ShimParams where
  addrW := 8
  dataW := 32
  tagW := 4
  cacheIdxW_lt := defaultParams.cacheIdxW_lt
  addrW_le := by omega
  dataW_le := by omega
  tagW_add_le := by omega

/-- A power-on in which the undefined registers come up as 0. -/
def powerOnZero : Undefined defaultShim := ⟨false, 0⟩

/-- The listed register writes in successive cycles, and an idle bus afterwards. -/
def script (ws : List (BitVec 5 × BitVec 32)) (t : ℕ) : Bus :=
  match ws[t]? with
  | some (r, v) => ⟨true, r, true, v⟩
  | none => Bus.idle

theorem script_rstn (ws : List (BitVec 5 × BitVec 32)) (t : ℕ) : (script ws t).rstn = true := by
  rw [script]
  split <;> rfl

theorem script_of_length_le {ws : List (BitVec 5 × BitVec 32)} {t : ℕ} (h : ws.length ≤ t) :
    script ws t = Bus.idle := by
  rw [script, List.getElem?_eq_none h]

theorem script_resetOnce (ws : List (BitVec 5 × BitVec 32)) : ResetOnce (script ws) :=
  fun t _ => script_rstn ws (t + 1)

end Demonstration

end CxlLite.Shim
