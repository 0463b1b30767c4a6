import CxlLite.Engine.Run
import CxlLite.Synchronous.Latch

/-!
# The Back-Invalidate handshake

The wait for a response is a latch set by the acknowledgement and cleared by
the response. The sequencer keeps no address of its own, so the address that a
response clears is the acknowledged one only because the request address is
held in between.
-/

namespace CxlLite.Engine

open Synchronous

variable {p : Params}

section Next

variable {s : State p} {i : Inputs p}

theorem biasNext_of_flip (h : s.biFlipNow i = true) :
    s.biasNext i = Function.update s.bias i.m2sAddr false := by
  simp [State.biasNext, h]

theorem biasNext_of_not_flip (h : s.biFlipNow i = false) :
    s.biasNext i = s.bias.write i.biasWrEn i.biasAddr i.biasWrData := by
  simp [State.biasNext, h]

theorem biStateNext_waitRsp_iff :
    s.biStateNext i = .waitRsp ↔
      (s.biReqValid = true ∧ i.biReqReady = true) ∨
        s.biState = .waitRsp ∧ ¬ (i.biRspValid = true ∧ s.biRspReady = true) := by
  rw [State.biStateNext, State.biReqValid, State.biRspReady]
  cases h : s.biState with
  | idle => cases hw : s.wantBi i <;> simp
  | req => simp
  | waitRsp => simp

/-- The sequencer is busy only for a request it was asked about or is working on. -/
theorem biActive_of_next (h : s.biStateNext i ≠ .idle) :
    s.wantBi i = true ∨ s.biState ≠ .idle := by
  simp only [State.biStateNext] at h
  cases hs : s.biState with
  | idle =>
      simp only [hs] at h
      exact Or.inl (by simpa using h)
  | req => exact Or.inr (by simp)
  | waitRsp => exact Or.inr (by simp)

theorem not_ready_of_biState (h : s.biState ≠ .idle) : s.m2sReady i = false := by
  simp [State.m2sReady, h]

theorem not_ready_of_bias (h : s.bias i.m2sAddr = true) : s.m2sReady i = false := by
  simp [State.m2sReady, State.biasQueryRdData, h]

end Next

section Events

variable (inp : ℕ → Inputs p)

/-- The host acknowledges a Back-Invalidate request in cycle `t`. -/
def biAck (t : ℕ) : Bool := (run inp t).biReqValid && (inp t).biReqReady

/-- A Back-Invalidate response is taken in cycle `t`. -/
def biRsp (t : ℕ) : Bool := (inp t).biRspValid && (run inp t).biRspReady

/-- Address `a` is Host-Biased in cycle `t`. -/
def HostBiased (t : ℕ) (a : p.Addr) : Prop := (run inp t).bias a = true

instance (t : ℕ) (a : p.Addr) : Decidable (HostBiased inp t a) :=
  inferInstanceAs (Decidable (_ = _))

/-- A debug write sets `a` to Device-Biased in cycle `t`. -/
def DebugClears (a : p.Addr) (t : ℕ) : Prop :=
  (inp t).biasWrEn = true ∧ (inp t).biasAddr = a ∧ (inp t).biasWrData = false ∧
    (run inp t).biFlipNow (inp t) = false

/-- The response taken in cycle `u` belongs to the acknowledgement of cycle `v`. -/
def Handshake (v u : ℕ) : Prop :=
  v < u ∧ biAck inp v = true ∧ biRsp inp u = true ∧ ∀ w, v < w → w < u → biRsp inp w = false

/-- The response taken in cycle `t` completes a handshake for `a`. -/
def CompletesFor (a : p.Addr) (t : ℕ) : Prop :=
  ∃ v, Handshake inp v t ∧ (run inp v).biReqAddr (inp v) = a

/-- The request address is held while the sequencer is busy. -/
def HoldsBiAddress : Prop :=
  ∀ t, (run inp t).biState ≠ .idle → (run inp (t + 1)).biState ≠ .idle →
    (inp (t + 1)).m2sAddr = (inp t).m2sAddr

end Events

section Runs

variable {inp : ℕ → Inputs p} {t : ℕ}

theorem rstN_of_biState (h : (run inp t).biState ≠ .idle) : (inp t).rstN = true :=
  rstN_of_not_reset (P := fun s => s.biState ≠ .idle) (fun _ hs => hs rfl) h

theorem rstN_of_biState_succ (h : (run inp (t + 1)).biState ≠ .idle) :
    (inp t).rstN = true :=
  rstN_of_not_reset_succ (P := fun s => s.biState ≠ .idle) (fun _ hs => hs rfl) h

theorem rstN_of_hostBiased {a : p.Addr} (h : HostBiased inp t a) : (inp t).rstN = true :=
  rstN_of_not_reset (P := fun s => s.bias a = true) (fun _ hs => by cases hs) h

/-- A busy sequencer made an ordinary clock edge. -/
theorem run_succ_of_biState (h : (run inp (t + 1)).biState ≠ .idle) :
    run inp (t + 1) = (run inp t).edge (inp t) :=
  run_succ_of_rstN (rstN_of_biState_succ h) (rstN_of_biState h)

theorem biAck_biState (h : biAck inp t = true) : (run inp t).biState = .req := by
  simp only [biAck, State.biReqValid, Bool.and_eq_true, beq_iff_eq] at h
  exact h.1

theorem biRsp_biState (h : biRsp inp t = true) : (run inp t).biState = .waitRsp := by
  simp only [biRsp, State.biRspReady, Bool.and_eq_true, beq_iff_eq] at h
  exact h.2

theorem biFlipNow_eq_biRsp : (run inp t).biFlipNow (inp t) = biRsp inp t :=
  Bool.and_comm _ _

/-- The wait for a response is set by the acknowledgement and cleared by the response. -/
theorem bi_latch (hr : ResetOnce inp) :
    Latch (fun t => (run inp t).biState = .waitRsp) (fun t => biAck inp t = true)
      (fun t => biRsp inp t = true) where
  init h := by
    have hact : (run inp 0).biState ≠ .idle := by simp [h]
    rw [run_zero, State.settle_of_rstN _ (rstN_of_biState hact)] at h
    cases h
  set_free t h := by simp [biAck_biState h]
  clear_held t := biRsp_biState
  next t := by
    simp only [biAck, biRsp, Bool.and_eq_true]
    rw [← biStateNext_waitRsp_iff]
    by_cases hrst : (inp t).rstN = true
    · rw [run_succ_of_rstN hrst (hr t hrst)]
      rfl
    · obtain ⟨s, hs⟩ := run_eq_reset (by simpa using hrst : (inp t).rstN = false)
      obtain ⟨s', hs'⟩ := run_succ_eq_reset (by simpa using hrst : (inp t).rstN = false)
      rw [hs, hs', biStateNext_waitRsp_iff]
      simp [State.biReqValid]

/-- A busy sequencer stays busy until a response is taken. -/
theorem biState_succ_of_not_rsp (hr : ResetOnce inp) (h : (run inp t).biState ≠ .idle)
    (hrsp : biRsp inp t = false) : (run inp (t + 1)).biState ≠ .idle := by
  have hrst := rstN_of_biState h
  rw [run_succ_of_rstN hrst (hr t hrst)]
  simp only [biRsp, State.biRspReady] at hrsp
  simp only [State.edge, State.biStateNext]
  cases hs : (run inp t).biState with
  | idle => exact absurd hs h
  | req => cases hack : (inp t).biReqReady <;> simp [State.biReqValid, hs]
  | waitRsp =>
      have hno : (inp t).biRspValid = false := by simpa [hs] using hrsp
      simp [hno]

/-- A host that holds a stalled request keeps it valid throughout a handshake. -/
theorem valid_of_biState (hh : HoldsAddress inp) (h : (run inp t).biState ≠ .idle) :
    (inp t).m2sValid = true := by
  induction t with
  | zero =>
      have hrst := rstN_of_biState h
      rw [run_zero, State.settle_of_rstN _ hrst] at h
      exact absurd rfl h
  | succ t ih =>
      have hnext : (run inp t).biStateNext (inp t) ≠ .idle := by
        rw [run_succ_of_biState h] at h
        exact h
      have hstalled : Stalled inp t := by
        rcases biActive_of_next hnext with hw | hs
        · simp only [State.wantBi, State.biasQueryRdData, Bool.and_eq_true] at hw
          exact ⟨hw.1.2, not_ready_of_bias hw.2⟩
        · exact ⟨ih hs, not_ready_of_biState hs⟩
      exact (hh t hstalled).1

theorem HoldsAddress.holdsBiAddress (hh : HoldsAddress inp) : HoldsBiAddress inp := by
  intro t h _
  exact (hh t ⟨valid_of_biState hh h, not_ready_of_biState h⟩).2

theorem Handshake.open_ack (hr : ResetOnce inp) {v u : ℕ} (h : Handshake inp v u) :
    Open (fun t => biAck inp t = true) (fun t => biRsp inp t = true) v u := by
  apply (bi_latch hr).open_of_set h.2.1 h.1
  intro w h₁ h₂
  simp [h.2.2.2 w h₁ h₂]

/-- Every response completes a handshake. -/
theorem exists_handshake (hr : ResetOnce inp) (h : biRsp inp t = true) :
    ∃ v, Handshake inp v t := by
  obtain ⟨v, hv, hack, hno⟩ := (bi_latch hr).clear_answers h
  refine ⟨v, hv, hack, h, ?_⟩
  intro w h₁ h₂
  exact Bool.eq_false_iff.mpr (hno w h₁ h₂).2

/-- The address acknowledged is still the one presented when the response is taken. -/
theorem addr_of_open (hr : ResetOnce inp) (hb : HoldsBiAddress inp) {v u : ℕ}
    (h : Open (fun t => biAck inp t = true) (fun t => biRsp inp t = true) v u) :
    (inp u).m2sAddr = (inp v).m2sAddr := by
  induction u with
  | zero => exact absurd h.1 (Nat.not_lt_zero v)
  | succ u ih =>
      have hnext : (run inp (u + 1)).biState = .waitRsp :=
        ((bi_latch hr).held_iff_open (u + 1)).mpr ⟨v, h⟩
      rcases open_succ_iff.mp h with ⟨rfl, hv⟩ | ⟨hopen, _, _⟩
      · exact hb v (by simp [biAck_biState hv]) (by simp [hnext])
      · have hheld : (run inp u).biState = .waitRsp :=
          ((bi_latch hr).held_iff_open u).mpr ⟨v, hopen⟩
        calc
          (inp (u + 1)).m2sAddr = (inp u).m2sAddr := hb u (by simp [hheld]) (by simp [hnext])
          _ = (inp v).m2sAddr := ih hopen

/-- A response clears the bias of the address it finds presented, and nothing else. -/
theorem run_bias_of_rsp (hr : ResetOnce inp) (h : biRsp inp t = true) :
    (run inp (t + 1)).bias = Function.update (run inp t).bias (inp t).m2sAddr false := by
  have hrst : (inp t).rstN = true := rstN_of_biState (by simp [biRsp_biState h])
  rw [run_succ_of_rstN hrst (hr t hrst)]
  exact biasNext_of_flip (biFlipNow_eq_biRsp.trans h)

/-- Without a response only the debug port writes the bias table. -/
theorem run_bias_of_not_rsp (hr : ResetOnce inp) (hrst : (inp t).rstN = true)
    (h : biRsp inp t = false) :
    (run inp (t + 1)).bias =
      (run inp t).bias.write (inp t).biasWrEn (inp t).biasAddr (inp t).biasWrData := by
  rw [run_succ_of_rstN hrst (hr t hrst)]
  exact biasNext_of_not_flip (biFlipNow_eq_biRsp.trans h)

/-- A handshake clears exactly the address acknowledged in it. -/
theorem run_bias_of_handshake (hr : ResetOnce inp) (hb : HoldsBiAddress inp) {v u : ℕ}
    (h : Handshake inp v u) :
    (run inp (u + 1)).bias =
      Function.update (run inp u).bias ((run inp v).biReqAddr (inp v)) false := by
  calc
    (run inp (u + 1)).bias = Function.update (run inp u).bias (inp u).m2sAddr false :=
      run_bias_of_rsp hr h.2.2.1
    _ = Function.update (run inp u).bias (inp v).m2sAddr false := by
      rw [addr_of_open hr hb (h.open_ack hr)]

/-- Host bias is lost through a debug write or a completed handshake only. -/
theorem loses_hostBias (hr : ResetOnce inp) (hb : HoldsBiAddress inp) {a : p.Addr}
    (h : HostBiased inp t a) (h' : ¬ HostBiased inp (t + 1) a) :
    DebugClears inp a t ∨ CompletesFor inp a t := by
  have hrst := rstN_of_hostBiased h
  cases hrsp : biRsp inp t with
  | true =>
      obtain ⟨v, hv⟩ := exists_handshake hr hrsp
      right
      refine ⟨v, hv, ?_⟩
      by_contra hne
      apply h'
      rw [HostBiased, run_bias_of_handshake hr hb hv, Function.update_of_ne (Ne.symm hne)]
      exact h
  | false =>
      rw [HostBiased, run_bias_of_not_rsp hr hrst hrsp, BiasTable.write] at h'
      split at h'
      case isTrue hen =>
        by_cases ha : (inp t).biasAddr = a
        · subst ha
          rw [Function.update_self, Bool.not_eq_true] at h'
          left
          exact ⟨hen, rfl, h', biFlipNow_eq_biRsp.trans hrsp⟩
        · rw [Function.update_of_ne (Ne.symm ha)] at h'
          exact absurd h h'
      case isFalse => exact absurd h h'

/-- A request to a Host-Biased address is served only after the bias was given up. -/
theorem served_after_release (hr : ResetOnce inp) (hb : HoldsBiAddress inp) {a : p.Addr}
    {t t' : ℕ} (htt : t < t') (h : HostBiased inp t a) (hacc : accepts inp t' = true)
    (ha : (inp t').m2sAddr = a) :
    ∃ u, t ≤ u ∧ u < t' ∧ (DebugClears inp a u ∨ CompletesFor inp a u) := by
  have hdev : (run inp t').bias a = false := ha ▸ bias_of_accept hacc
  obtain ⟨u, h₁, h₂, hup, hdown⟩ :=
    exists_fall (f := fun u => (run inp u).bias a) htt h hdev
  exact ⟨u, h₁, h₂, loses_hostBias hr hb hup (by simpa [HostBiased] using hdown)⟩

/-- The Back-Invalidate protocol is coherent for a host that holds a stalled
request: a Host-Biased address is served only after a debug write or a
completed handshake for it, acknowledgements and responses strictly alternate,
and a handshake clears the acknowledged address on the edge of its response,
where nothing else changes and before which it changes nothing. -/
theorem bi_coherence (hr : ResetOnce inp) (hh : HoldsAddress inp) :
    (∀ a t t', t < t' → HostBiased inp t a → accepts inp t' = true → (inp t').m2sAddr = a →
      ∃ u, t ≤ u ∧ u < t' ∧ (DebugClears inp a u ∨ CompletesFor inp a u)) ∧
    Alternate (fun t => biAck inp t = true) (fun t => biRsp inp t = true) ∧
    (∀ v u, Handshake inp v u → (run inp (u + 1)).bias =
      Function.update (run inp u).bias ((run inp v).biReqAddr (inp v)) false) ∧
    (∀ t, (inp t).rstN = true → biRsp inp t = false → (run inp (t + 1)).bias =
      (run inp t).bias.write (inp t).biasWrEn (inp t).biasAddr (inp t).biasWrData) := by
  have hb := hh.holdsBiAddress
  refine ⟨?_, (bi_latch hr).alternate, ?_, ?_⟩
  · intro a t t' htt h hacc ha
    exact served_after_release hr hb htt h hacc ha
  · intro v u h
    exact run_bias_of_handshake hr hb h
  · intro t hrst hrsp
    exact run_bias_of_not_rsp hr hrst hrsp

end Runs

section Demonstration

set_option maxRecDepth 4000

/-- Address 16 is made Host-Biased, and a read of it goes through one handshake. -/
def handshakeRun : ℕ → Inputs defaultParams
  | 0 => { idleInputs with biasWrEn := true, biasAddr := 16, biasWrData := true }
  | t + 1 => { idleInputs with
      m2sValid := t < 4, m2sAddr := 16, m2sTag := 5, biReqReady := t == 1, biRspValid := t == 2 }

theorem holdsAddress_handshakeRun : HoldsAddress handshakeRun := by
  intro t
  by_cases ht : t < 5
  · revert t
    decide
  · obtain ⟨u, rfl⟩ := Nat.exists_eq_add_of_le' (Nat.le_of_not_lt ht)
    rintro ⟨hv, _⟩
    simp only [handshakeRun, decide_eq_true_eq] at hv
    omega

theorem bi_coherence_handshakeRun :
    ∃ u, 1 ≤ u ∧ u < 4 ∧ (DebugClears handshakeRun 16 u ∨ CompletesFor handshakeRun 16 u) :=
  (bi_coherence (fun _ _ => rfl) holdsAddress_handshakeRun).1 16 1 4 (by omega)
    (by decide) (by decide) rfl

end Demonstration

end CxlLite.Engine
