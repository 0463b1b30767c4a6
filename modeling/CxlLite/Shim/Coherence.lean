import CxlLite.Engine.BackInvalidate
import CxlLite.Shim.Delivery
import CxlLite.Shim.Registers

/-!
# Back-Invalidate through the register interface

The engine reads the request address live during a handshake, and the shim
feeds it from `REQ_ADDR`. The handshake is coherent exactly when no bus write
changes that register while a handshake is in flight.
-/

namespace CxlLite.Shim

open Engine Synchronous

variable {q : ShimParams}

section Statements

variable (x : Undefined q) (bus : ℕ → Bus)

/-- A `BI_RSP_SEND` completes the handshake in cycle `t`. -/
def completesBi (t : ℕ) : Bool := Engine.biRsp (ports x bus) t

/-- The `BI_RSP_SEND` of cycle `u` completes the handshake whose `BI_REQ_ACK`
was written in cycle `v`. -/
def BusHandshake (v u : ℕ) : Prop := Engine.Handshake (ports x bus) v u

/-- Address `a` gives up Host bias in cycle `t`: by a `BIAS_SET` of 0, or by the
`BI_RSP_SEND` of a handshake in which `BI_REQ_ADDR` showed `a` to the acknowledging host. -/
def Released (a : q.engine.Addr) (t : ℕ) : Prop :=
  ((bus t).writeBias = true ∧ (run x bus t).biasAddr = a ∧ (bus t).writeBit = false) ∨
    ∃ v, BusHandshake x bus v t ∧ (run x bus v).shownBiAddr = a

/-- What the register interface promises about Back-Invalidate. -/
structure CoherentBi : Prop where
  shown : ∀ t₀ t, t₀ ≤ t → ((run x bus t₀).readReg addrBiStatus).getLsbD 0 = true →
    (∀ w, t₀ ≤ w → w < t → completesBi x bus w = false) →
      (run x bus t).readReg addrBiReqAddr = (run x bus t₀).readReg addrBiReqAddr
  flips : ∀ v u, BusHandshake x bus v u →
    (run x bus (u + 1)).engine.bias =
      Function.update (run x bus u).engine.bias (run x bus v).shownBiAddr false
  loses : ∀ a t, (run x bus t).engine.bias a = true → (run x bus (t + 1)).engine.bias a = false →
    Released x bus a t
  served : ∀ a t t', t < t' → (run x bus t).engine.bias a = true → accepts x bus t' = true →
    (run x bus t').reqAddr = a → ∃ u, t ≤ u ∧ u < t' ∧ Released x bus a u

/-- No write to `REQ_ADDR` changes the register while a handshake is in flight. -/
def KeepsBiAddress : Prop :=
  ∀ t, (run x bus t).engine.biActive = true → (bus t).writes addrReqAddr = true →
    (bus t).writeAddr q = (run x bus t).reqAddr

end Statements

section Handshake

variable {x : Undefined q} {bus : ℕ → Bus} {t : ℕ}

theorem ports_resetOnce (hr : ResetOnce bus) : Engine.ResetOnce (ports x bus) := hr

theorem biActive_iff : (run x bus t).engine.biActive = true ↔
    (Engine.run (ports x bus) t).biState ≠ .idle := by
  rw [run_engine]
  simp [Engine.State.biActive]

theorem biReqValid_iff : (run x bus t).engine.biReqValid = true ↔
    (Engine.run (ports x bus) t).biState = .req := by
  rw [run_engine]
  simp [Engine.State.biReqValid]

theorem holdsBiAddress (hr : ResetOnce bus) (hk : KeepsBiAddress x bus) :
    HoldsBiAddress (ports x bus) := by
  intro t h _
  have h₀ : (bus t).rstn = true := rstN_of_biState h
  show (run x bus (t + 1)).reqAddr = (run x bus t).reqAddr
  rw [run_succ_of_rstn h₀ (hr t h₀)]
  exact reqAddrNext_eq (hk t (biActive_iff.mpr h))

/-- From a pending request to its completing response the sequencer is busy and
shows one address. -/
theorem shown_until_completed (hr : ResetOnce bus) (hb : HoldsBiAddress (ports x bus))
    {t₀ : ℕ} (h : (Engine.run (ports x bus) t₀).biState ≠ .idle) (ht : t₀ ≤ t)
    (hno : ∀ w, t₀ ≤ w → w < t → completesBi x bus w = false) :
    (Engine.run (ports x bus) t).biState ≠ .idle ∧
      (run x bus t).reqAddr = (run x bus t₀).reqAddr := by
  induction t, ht using Nat.le_induction with
  | base => exact ⟨h, rfl⟩
  | succ t ht ih =>
      obtain ⟨hbusy, haddr⟩ := ih fun w h₁ h₂ => hno w h₁ (Nat.lt_succ_of_lt h₂)
      have hnext := biState_succ_of_not_rsp (ports_resetOnce hr) hbusy
        (hno t ht (Nat.lt_succ_self t))
      exact ⟨hnext, (hb t hbusy hnext).trans haddr⟩

/-- In a busy cycle some earlier cycle has shown the pending request, with no
response since. -/
theorem exists_shown_of_biActive (hr : ResetOnce bus)
    (h : (run x bus t).engine.biActive = true) :
    ∃ t₀, t₀ ≤ t ∧ (run x bus t₀).engine.biReqValid = true ∧
      ∀ w, t₀ ≤ w → w < t → completesBi x bus w = false := by
  cases hs : (Engine.run (ports x bus) t).biState with
  | idle => exact absurd hs (biActive_iff.mp h)
  | req => exact ⟨t, le_rfl, biReqValid_iff.mpr hs, fun w h₁ h₂ => by omega⟩
  | waitRsp =>
      obtain ⟨v, hvt, hack, hno⟩ := ((bi_latch (ports_resetOnce hr)).held_iff_open t).mp hs
      have hreq := biAck_biState hack
      refine ⟨v, hvt.le, biReqValid_iff.mpr hreq, fun w h₁ h₂ => Bool.eq_false_iff.mpr ?_⟩
      rcases Nat.eq_or_lt_of_le h₁ with rfl | hlt
      · exact fun hrsp => by simp [biRsp_biState hrsp] at hreq
      · exact (hno w hlt h₂).2

/-- Losing Host bias in the engine is a release at the registers. -/
theorem released_of_engine {a : q.engine.Addr} (h : DebugClears (ports x bus) a t ∨
    CompletesFor (ports x bus) a t) : Released x bus a t := by
  rcases h with ⟨hw, ha, hd, _⟩ | ⟨v, hv, ha⟩
  · exact Or.inl ⟨hw, ha, hd⟩
  · exact Or.inr ⟨v, hv, (State.shownBiAddr_eq _).trans ha⟩

/-- A write to `REQ_ADDR` completes no handshake. -/
theorem not_completesBi_of_reqAddr (hw : (bus t).writes addrReqAddr = true) :
    completesBi x bus t = false := by
  have hrsp : (bus t).writeBiRsp = false := Bus.writes_eq_false hw (by decide)
  rw [completesBi, biRsp, Bool.and_eq_false_iff]
  exact Or.inl hrsp

/-- A coherent register interface has no effective write to `REQ_ADDR` during a handshake. -/
theorem CoherentBi.keepsBiAddress (hr : ResetOnce bus) (hc : CoherentBi x bus) :
    KeepsBiAddress x bus := by
  intro t hact hw
  obtain ⟨t₀, ht, hreq, hno⟩ := exists_shown_of_biActive hr hact
  have hpending := (State.biStatus_reqValid _).trans hreq
  have hsame := hc.shown t₀ t ht hpending hno
  have hnext := hc.shown t₀ (t + 1) (Nat.le_succ_of_le ht) hpending (by
    intro w h₁ h₂
    rcases Nat.lt_succ_iff_lt_or_eq.mp h₂ with hlt | rfl
    · exact hno w h₁ hlt
    · exact not_completesBi_of_reqAddr hw)
  have haddr := State.readReg_biReqAddr_inj.mp (hnext.trans hsame.symm)
  have h₀ : (bus t).rstn = true := rstN_of_biState (biActive_iff.mp hact)
  rw [run_succ_of_rstn h₀ (hr t h₀)] at haddr
  simpa [State.edge, State.reqAddrNext, hw] using haddr

/-- A run that keeps `REQ_ADDR` during handshakes inherits the engine's coherence. -/
theorem KeepsBiAddress.coherentBi (hr : ResetOnce bus) (hk : KeepsBiAddress x bus) :
    CoherentBi x bus := by
  have hb := holdsBiAddress hr hk
  have hr' := ports_resetOnce (x := x) hr
  constructor
  · intro t₀ t ht hshown hno
    rw [State.biStatus_reqValid, biReqValid_iff] at hshown
    apply State.readReg_biReqAddr_inj.mpr
    exact (shown_until_completed hr hb (by simp [hshown]) ht hno).2
  · intro v u h
    rw [State.shownBiAddr_eq, run_engine, run_engine]
    exact run_bias_of_handshake hr' hb h
  · intro a t h h'
    rw [run_engine] at h h'
    apply released_of_engine
    exact loses_hostBias hr' hb h (by simp [HostBiased, h'])
  · intro a t t' htt h hacc ha
    rw [run_engine] at h
    rw [accepts_eq] at hacc
    obtain ⟨u, h₁, h₂, hu⟩ := served_after_release hr' hb htt h hacc ha
    exact ⟨u, h₁, h₂, released_of_engine hu⟩

end Handshake

/-- Back-Invalidate is coherent at the register interface in exactly the runs
in which no bus write changes `REQ_ADDR` during a handshake. -/
theorem coherentBi_iff {x : Undefined q} {bus : ℕ → Bus} (hr : ResetOnce bus) :
    CoherentBi x bus ↔ KeepsBiAddress x bus := by
  constructor
  · intro hc
    exact hc.keepsBiAddress hr
  · intro hk
    exact hk.coherentBi hr

section Demonstration

set_option maxRecDepth 4000

theorem keepsBiAddress_rewrittenRequest : KeepsBiAddress powerOnZero rewrittenRequest := by
  intro t
  by_cases ht : t < 5
  · revert t
    decide
  · rw [rewrittenRequest_of_le (Nat.le_of_not_lt ht)]
    intro _ h
    cases h

theorem coherentBi_rewrittenRequest : CoherentBi powerOnZero rewrittenRequest :=
  (coherentBi_iff (script_resetOnce _)).mpr keepsBiAddress_rewrittenRequest

/-- A read of the Host-Biased address 0 is acknowledged in cycle 3, software
writes 5 to `REQ_ADDR` in cycle 4 and completes the handshake in cycle 5. -/
def redirectedHandshake : ℕ → Bus :=
  script [(addrBiasSet, 1), (addrReqFire, 0), (addrBiasAddr, 0), (addrBiReqAck, 0),
    (addrReqAddr, 5), (addrBiRspSend, 0)]

/-- The host acknowledges address 0, and then `BI_REQ_ADDR` shows 5. -/
theorem not_coherentBi :
    ¬ ∀ (x : Undefined defaultShim) (bus : ℕ → Bus), ResetOnce bus → CoherentBi x bus := by
  intro h
  have hshown := (h powerOnZero redirectedHandshake (script_resetOnce _)).shown 3 5 (by omega)
    (by decide)
  have hno : ∀ w, 3 ≤ w → w < 5 → completesBi powerOnZero redirectedHandshake w = false := by
    intro w h₁ h₂
    obtain rfl | rfl : w = 3 ∨ w = 4 := by omega
    all_goals decide +kernel
  exact absurd (hshown hno) (by decide)

end Demonstration

end CxlLite.Shim
