import CxlLite.Engine.BackInvalidate
import CxlLite.Shim.Registers

/-!
# The bias table at the register interface

`BIAS_SET` and the completion of a handshake share one write port, on which the
completion has priority. They come from different registers, and so never from
the same bus cycle.
-/

namespace CxlLite.Shim

open Engine Synchronous

variable {q : ShimParams}

section Statements

variable (x : Undefined q) (bus : ℕ → Bus)

/-- `BIAS_SET` of `v` is written in cycle `t` while `BIAS_ADDR` holds `a`. -/
def SetsBias (a : q.engine.Addr) (v : Bool) (t : ℕ) : Prop :=
  (bus t).writeBias = true ∧ (run x bus t).biasAddr = a ∧ (bus t).writeBit = v

/-- `BI_RSP_SEND` is written in cycle `t` while the sequencer waits for the
response, with request address `a`. -/
def EndsHandshake (a : q.engine.Addr) (t : ℕ) : Prop :=
  (bus t).writeBiRsp = true ∧ (run x bus t).engine.biState = .waitRsp ∧
    (run x bus t).reqAddr = a

/-- Either of the two events that concern the bias of `a`. -/
def BiasEvent (a : q.engine.Addr) (t : ℕ) : Prop :=
  (∃ v, SetsBias x bus a v t) ∨ EndsHandshake x bus a t

/-- The latest bias event for `a` from cycle `r` to before cycle `t` was a `BIAS_SET` of 1. -/
def LatestSetsHost (a : q.engine.Addr) (r t : ℕ) : Prop :=
  ∃ u, r ≤ u ∧ Open (SetsBias x bus a true) (BiasEvent x bus a) u t

end Statements

section Step

variable {x : Undefined q} {bus : ℕ → Bus} {r t : ℕ} {a : q.engine.Addr}

theorem latestSetsHost_succ (hrt : r ≤ t) :
    LatestSetsHost x bus a r (t + 1) ↔
      SetsBias x bus a true t ∨ LatestSetsHost x bus a r t ∧ ¬ BiasEvent x bus a t := by
  constructor
  · rintro ⟨u, hru, hopen⟩
    rcases open_succ_iff.mp hopen with ⟨rfl, hset⟩ | ⟨hopen', _, hno⟩
    · exact Or.inl hset
    · exact Or.inr ⟨⟨u, hru, hopen'⟩, hno⟩
  · rintro (hset | ⟨⟨u, hru, hopen⟩, hno⟩)
    · exact ⟨t, hrt, open_succ_iff.mpr (Or.inl ⟨rfl, hset⟩)⟩
    · refine ⟨u, hru, open_succ_iff.mpr (Or.inr ⟨hopen, ?_, hno⟩)⟩
      intro hset
      exact hno (Or.inl ⟨true, hset⟩)

/-- A `BIAS_SET` is not overruled by the completion of a handshake. -/
theorem not_flip_of_writeBias (h : (bus t).writeBias = true) :
    (run x bus t).engine.biFlipNow (ports x bus t) = false := by
  have hrsp : (ports x bus t).biRspValid = false := Bus.writes_eq_false h (by decide)
  rw [Engine.State.biFlipNow, hrsp, Bool.and_false]

theorem flip_iff :
    (run x bus t).engine.biFlipNow (ports x bus t) = true ↔
      EndsHandshake x bus (run x bus t).reqAddr t := by
  rw [Engine.State.biFlipNow, Bool.and_eq_true, beq_iff_eq, EndsHandshake]
  constructor
  · rintro ⟨hstate, hrsp⟩
    exact ⟨hrsp, hstate, rfl⟩
  · rintro ⟨hrsp, hstate, _⟩
    exact ⟨hstate, hrsp⟩

theorem run_bias_succ (h₀ : (bus t).rstn = true) (h₁ : (bus (t + 1)).rstn = true) :
    (run x bus (t + 1)).engine.bias = (run x bus t).engine.biasNext (ports x bus t) := by
  rw [run_succ_of_rstn h₀ h₁, State.edge_engine h₀]
  rfl

/-- `BIAS_SET` has the write port to itself. -/
theorem biasNext_of_set (h : (bus t).writeBias = true) :
    (run x bus t).engine.biasNext (ports x bus t) =
      Function.update (run x bus t).engine.bias (run x bus t).biasAddr (bus t).writeBit := by
  have hen : (ports x bus t).biasWrEn = true := h
  rw [biasNext_of_not_flip (not_flip_of_writeBias h), hen]
  rfl

theorem biasNext_of_quiet (h : (bus t).writeBias = false)
    (hflip : (run x bus t).engine.biFlipNow (ports x bus t) = false) :
    (run x bus t).engine.biasNext (ports x bus t) = (run x bus t).engine.bias := by
  have hen : (ports x bus t).biasWrEn = false := h
  rw [biasNext_of_not_flip hflip, hen]
  rfl

/-- What one cycle does to the bias of one address. -/
theorem bias_succ_iff (h₀ : (bus t).rstn = true) (h₁ : (bus (t + 1)).rstn = true) :
    (run x bus (t + 1)).engine.bias a = true ↔
      SetsBias x bus a true t ∨ (run x bus t).engine.bias a = true ∧ ¬ BiasEvent x bus a t := by
  rw [run_bias_succ h₀ h₁]
  cases hset : (bus t).writeBias with
  | true =>
      have hends : ¬ EndsHandshake x bus a t := by
        rintro ⟨hrsp, _⟩
        exact absurd (Bus.writes_unique hset hrsp) (by decide)
      rw [biasNext_of_set hset]
      by_cases ha : (run x bus t).biasAddr = a
      · simp [ha, SetsBias, BiasEvent, hset]
      · simp [Function.update_of_ne (Ne.symm ha), SetsBias, BiasEvent, ha, hends]
  | false =>
      have hno : ∀ v, ¬ SetsBias x bus a v t := by
        rintro v ⟨hw, _⟩
        rw [hset] at hw
        cases hw
      cases hflip : (run x bus t).engine.biFlipNow (ports x bus t) with
      | true =>
          have hends := flip_iff.mp hflip
          have haddr : (ports x bus t).m2sAddr = (run x bus t).reqAddr := rfl
          rw [biasNext_of_flip hflip, haddr]
          by_cases ha : (run x bus t).reqAddr = a
          · subst ha
            simp [hno, BiasEvent, hends]
          · have hother : ¬ EndsHandshake x bus a t := fun h => ha h.2.2
            simp [Function.update_of_ne (Ne.symm ha), hno, BiasEvent, hother]
      | false =>
          have hends : ¬ EndsHandshake x bus a t := by
            rintro ⟨hrsp, hstate, haddr⟩
            rw [flip_iff.mpr ⟨hrsp, hstate, rfl⟩] at hflip
            cases hflip
          rw [biasNext_of_quiet hset hflip]
          simp [hno, BiasEvent, hends]

end Step

section Runs

variable {x : Undefined q} {bus : ℕ → Bus} {r t : ℕ}

theorem bias_of_rose (h : UpSince (fun u => (bus u).rstn) r t) (hrt : r ≤ t)
    (a : q.engine.Addr) : (run x bus r).engine.bias a = false := by
  cases r with
  | zero =>
      rw [run_zero, State.settle_of_rstn (h.up 0 le_rfl hrt)]
      rfl
  | succ r =>
      obtain ⟨s, hs⟩ := run_succ_eq_reset (x := x) (h.rose r rfl)
      rw [hs]
      rfl

/-- Since the last reset the bias table folds the bias events of every address. -/
theorem bias_iff_latestSetsHost (h : UpSince (fun u => (bus u).rstn) r t) (hrt : r ≤ t)
    (a : q.engine.Addr) :
    (run x bus t).engine.bias a = true ↔ LatestSetsHost x bus a r t := by
  induction t, hrt using Nat.le_induction with
  | base =>
      rw [bias_of_rose h le_rfl]
      constructor
      · intro hf
        cases hf
      · rintro ⟨u, hru, hopen⟩
        exact absurd hopen.1 (Nat.not_lt_of_le hru)
  | succ t hrt ih =>
      rw [bias_succ_iff (h.up t hrt (Nat.le_succ t))
        (h.up (t + 1) (Nat.le_succ_of_le hrt) le_rfl), latestSetsHost_succ hrt,
        ih (h.mono (Nat.le_succ t))]

theorem State.readReg_biasGet (s : State q) :
    s.readReg addrBiasGet = 1 ↔ s.engine.bias s.biasAddr = true := by
  have hread : s.readReg addrBiasGet = 0#31 ++ BitVec.ofBool (s.engine.bias s.biasAddr) := rfl
  rw [hread]
  cases s.engine.bias s.biasAddr <;> decide

/-- No bias update is lost: since the last reset, an address is Host-Biased if
and only if its latest bias event was a `BIAS_SET` of 1, and `BIAS_GET` reads so. -/
theorem bias_table_folds (h : UpSince (fun u => (bus u).rstn) r t) (hrt : r ≤ t) :
    (∀ a, (run x bus t).engine.bias a = true ↔ LatestSetsHost x bus a r t) ∧
      ((run x bus t).readReg addrBiasGet = 1 ↔
        LatestSetsHost x bus (run x bus t).biasAddr r t) := by
  constructor
  · intro a
    exact bias_iff_latestSetsHost h hrt a
  · rw [State.readReg_biasGet]
    exact bias_iff_latestSetsHost h hrt _

end Runs

section Demonstration

/-- Address 0 is made Host-Biased. -/
def biasedOnce : ℕ → Bus := script [(addrBiasSet, 1)]

theorem bias_table_folds_biasedOnce :
    (run powerOnZero biasedOnce 2).readReg addrBiasGet = 1 ↔
      LatestSetsHost powerOnZero biasedOnce (run powerOnZero biasedOnce 2).biasAddr 0 2 :=
  (bias_table_folds ⟨fun _ h => absurd h (Nat.succ_ne_zero _), fun u _ _ => script_rstn _ u⟩
    (Nat.zero_le 2)).2

end Demonstration

end CxlLite.Shim
