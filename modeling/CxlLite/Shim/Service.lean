import CxlLite.Shim.Debt
import CxlLite.Shim.Registers

/-!
# The host service loop

In each round software samples `BI_STATUS` and `STATUS` and answers what it
saw. A round in which the debt does not fall did nothing at all, and then there
was nothing left to do.
-/

namespace CxlLite.Shim

open Engine Synchronous

variable {q : ShimParams}

section Policy

/-- The register that the service loop writes, given the value of `BI_STATUS`
when it tests bit 0, its value when it tests bit 1, and the value of `STATUS`. -/
def serviceWrite (biStatus biStatus' status : BitVec 32) : Option (BitVec 5) :=
  if biStatus.getLsbD 0 then some addrBiReqAck
  else if biStatus'.getLsbD 1 then some addrBiRspSend
  else if status.getLsbD 0 then some addrRespAck
  else none

/-- The bus cycle performs the chosen write, or none. -/
def Bus.performs (b : Bus) : Option (BitVec 5) → Prop
  | some r => b.writes r = true
  | none => b.avsWrite = false

variable (x : Undefined q) (bus : ℕ → Bus)

/-- The cycles from `a` to before `b` are one round of the service loop: three
samples in order, then the chosen write, and no other write. -/
def ServiceRound (a b : ℕ) : Prop :=
  ∃ p p' r w, a ≤ p ∧ p ≤ p' ∧ p' ≤ r ∧ r ≤ w ∧ w < b ∧
    (bus w).performs (serviceWrite ((run x bus p).readReg addrBiStatus)
      ((run x bus p').readReg addrBiStatus) ((run x bus r).readReg addrStatus)) ∧
    ∀ t, a ≤ t → t < b → t ≠ w → (bus t).avsWrite = false

/-- From cycle `T` on reset stays released and software only repeats service rounds. -/
def ServedFrom (T : ℕ) : Prop :=
  (∀ t, T ≤ t → (bus t).rstn = true) ∧
    ∃ start : ℕ → ℕ, start 0 = T ∧ ∀ k, ServiceRound x bus (start k) (start (k + 1))

end Policy

namespace State

variable (s : State q) (b : Bus)

/-- No pending request, no handshake, no eviction, and every tag is free. -/
structure Quiescent : Prop where
  pending : s.pendingValid = false
  handshake : s.engine.biState = .idle
  eviction : s.engine.flushState = .idle
  slots : ∀ g, (s.engine.slot g).valid = false

/-- Tag and `is_data` of a completion. -/
def answer (c : Completion q.engine) : q.engine.Tag × Bool := (c.1, c.2.isSome)

/-- Tag and `is_data` of every pending or outstanding request. -/
def outstanding : Multiset (q.engine.Tag × Bool) :=
  s.engine.occupied.map answer +
    if s.pendingValid then {(s.pendingTag, !s.pendingIsWrite)} else 0

/-- Tag and `is_data` of the response that a `RESP_ACK` consumes in this cycle. -/
def acknowledged : Multiset (q.engine.Tag × Bool) :=
  if s.engine.s2mValid && b.writeAck then {(s.engine.s2mTag, s.engine.s2mIsData)} else 0

variable {s b}

theorem answer_completion (t : q.engine.Tag) (w : Bool) (d : q.engine.Data) :
    answer (completion t w d) = (t, !w) := by
  cases w <;> rfl

theorem map_owed :
    (s.engine.owed (s.engineInputs b)).map answer =
      if s.accepting b then {(s.pendingTag, !s.pendingIsWrite)} else 0 := by
  rw [Engine.State.owed, ← accepting_eq]
  split
  · rw [Multiset.map_singleton, answer_completion]
    rfl
  · rfl

theorem map_delivered :
    (s.engine.delivered (s.engineInputs b)).map answer = s.acknowledged b := by
  rw [Engine.State.delivered, acknowledged]
  change Multiset.map answer (if s.engine.s2mValid && b.writeAck then _ else _) = _
  split
  · rw [Multiset.map_singleton, answer]
    cases s.engine.s2mIsData <;> rfl
  · rfl

/-- Every cycle hands exactly the consumed response over to software. -/
theorem outstanding_edge (hr : s.engine.OfferReady) (h : s.Holding b) :
    s.outstanding = s.acknowledged b + (s.edge b).outstanding := by
  have hslot : (s.edge b).engine.slot = s.engine.slotNext (s.engineInputs b) := by
    rw [h.engine]; rfl
  have hnext := congrArg (Multiset.map answer) (Engine.State.occupied_next hslot hr)
  rw [Multiset.map_add, Multiset.map_add, map_owed, map_delivered] at hnext
  have hpend : (if s.pendingValid then {(s.pendingTag, !s.pendingIsWrite)} else 0) =
      (if s.accepting b then {(s.pendingTag, !s.pendingIsWrite)} else 0) +
        (if (s.edge b).pendingValid then
          {((s.edge b).pendingTag, !(s.edge b).pendingIsWrite)} else
            (0 : Multiset (q.engine.Tag × Bool))) := by
    rw [h.pendingValid, accepting]
    cases hp : s.pendingValid with
    | false => rfl
    | true =>
        have htag : (s.edge b).pendingTag = s.pendingTag := by
          simp [edge, pendingTagNext, hp]
        have hwrite : (s.edge b).pendingIsWrite = s.pendingIsWrite := by
          simp [edge, pendingIsWriteNext, hp]
        cases s.m2sReady b <;> simp [htag, hwrite]
  rw [outstanding, outstanding, hpend, ← add_assoc, hnext, add_assoc]

/-- No response is offered in a quiescent state. -/
theorem Quiescent.respActive (h : s.Quiescent) (hr : s.engine.OfferReady) :
    s.engine.respActive = false := by
  by_contra hactive
  have hslot := (eligible_iff.mp (hr (by simpa using hactive))).1
  simp [h.slots] at hslot

/-- A quiescent state stays quiescent while nothing is fired. -/
theorem Quiescent.edge (h : s.Quiescent) (hr : s.engine.OfferReady) (hrst : b.rstn = true)
    (hfire : b.writeFire = false) : (s.edge b).Quiescent := by
  have hvalid : (s.engineInputs b).m2sValid = false := h.pending
  have haccept : s.engine.acceptThisCycle (s.engineInputs b) = false := by
    simp [Engine.State.acceptThisCycle, hvalid]
  constructor
  · simp [State.edge, pendingValidNext, hfire, h.pending]
  · rw [edge_engine hrst]
    simp [Engine.State.edge, Engine.State.biStateNext, h.handshake, Engine.State.wantBi, hvalid]
  · rw [edge_engine hrst]
    simp [Engine.State.edge, Engine.State.flushStateNext, h.eviction, Engine.State.wantFlush,
      hvalid]
  · intro g
    rw [Bool.eq_false_iff, edge_engine hrst]
    intro hg
    rcases (slotNext_valid_iff hr g).mp hg with ha | hv
    · simp [haccept] at ha
    · simp [h.slots] at hv

theorem outstanding_of_quiescent (h : s.Quiescent) : s.outstanding = 0 := by
  simp [outstanding, h.pending, Engine.State.occupied, Slot.bag_of_free (h.slots _)]

end State

section Rounds

variable {x : Undefined q} {bus : ℕ → Bus}

theorem holding_of_no_write {s : State q} {b : Bus} (hrst : b.rstn = true)
    (h : b.avsWrite = false) : s.Holding b := by
  have hnone := Bus.writes_of_no_write h
  refine ⟨hrst, hnone _, hnone _, hnone _, ?_⟩
  intro hf
  rw [Bus.writeFire, hnone] at hf
  cases hf

theorem holding_of_writes {s : State q} {b : Bus} {r : BitVec 5} (hrst : b.rstn = true)
    (hw : b.writes r = true)
    (hr : r ≠ addrReqAddr ∧ r ≠ addrBiasSet ∧ r ≠ addrCacheBypass ∧ r ≠ addrReqFire) :
    s.Holding b where
  rstn := hrst
  addr := Bus.writes_eq_false hw hr.1
  bias := Bus.writes_eq_false hw hr.2.1
  bypass := Bus.writes_eq_false hw hr.2.2.1
  fire hf := absurd (Bus.writes_unique hw hf) hr.2.2.2

/-- The service loop writes nothing that a pending request depends on. -/
theorem holding_of_performs {s : State q} {b : Bus} (hrst : b.rstn = true)
    {v v' v'' : BitVec 32} (h : b.performs (serviceWrite v v' v'')) : s.Holding b := by
  rw [serviceWrite] at h
  split at h
  · exact holding_of_writes hrst h (by decide)
  split at h
  · exact holding_of_writes hrst h (by decide)
  split at h
  · exact holding_of_writes hrst h (by decide)
  · exact holding_of_no_write hrst h

theorem ServiceRound.lt {a b : ℕ} (h : ServiceRound x bus a b) : a < b := by
  obtain ⟨p, p', r, w, h₁, h₂, h₃, h₄, h₅, _⟩ := h
  omega

theorem ServiceRound.holding {a b t : ℕ} (h : ServiceRound x bus a b)
    (hrst : (bus t).rstn = true) (h₁ : a ≤ t) (h₂ : t < b) : (run x bus t).Holding (bus t) := by
  obtain ⟨p, p', r, w, _, _, _, _, _, hw, hno⟩ := h
  by_cases ht : t = w
  · exact holding_of_performs hrst (ht ▸ hw)
  · exact holding_of_no_write hrst (hno t h₁ h₂ ht)

/-- A cycle without work keeps the sequencer and the offer as they are. -/
theorem still_edge {s : State q} {b : Bus} (h : s.Holding b) (hwork : s.NoWork b) :
    (s.edge b).engine.biState = s.engine.biState ∧
      (s.edge b).engine.respActive = s.engine.respActive := by
  have hbi := hwork.handshake
  have hoffers := hwork.offers
  have hconsumed := hwork.consumed
  rw [h.engine]
  constructor
  · change s.engine.biStateNext (s.engineInputs b) = _
    simp only [State.biWork] at hbi
    rw [Engine.State.biStateNext]
    cases hs : s.engine.biState with
    | idle =>
        simp only [hs] at hbi
        simp [State.wantBi_of_idle hs, hbi]
    | req =>
        simp only [hs] at hbi
        simp [State.engineInputs, hbi]
    | waitRsp =>
        simp only [hs] at hbi
        simp [State.engineInputs, hbi]
  · change s.engine.respActiveNext (s.engineInputs b) = _
    simp only [Engine.State.offers] at hoffers
    simp only [Engine.State.respConsumedThisCycle] at hconsumed
    rw [Engine.State.respActiveNext]
    cases ha : s.engine.respActive <;> simp_all

/-- A round without work shows one sequencer state and one offer. -/
theorem still_of_no_work {a b t : ℕ}
    (hhold : ∀ u, a ≤ u → u < b → (run x bus u).Holding (bus u))
    (hwork : ∀ u, a ≤ u → u < b → (run x bus u).NoWork (bus u)) (h₁ : a ≤ t) (h₂ : t < b) :
    (run x bus t).engine.biState = (run x bus a).engine.biState ∧
      (run x bus t).engine.respActive = (run x bus a).engine.respActive := by
  induction t, h₁ using Nat.le_induction with
  | base => exact ⟨rfl, rfl⟩
  | succ t h₁ ih =>
      have ht : t < b := Nat.lt_of_succ_lt h₂
      have h₀ := hhold t h₁ ht
      rw [run_succ_of_rstn h₀.rstn (hhold (t + 1) (by omega) h₂).rstn]
      have hedge := still_edge h₀ (hwork t h₁ ht)
      constructor
      · exact hedge.1.trans (ih ht).1
      · exact hedge.2.trans (ih ht).2

/-- A state in which nothing moves and nothing is shown to the host is quiescent. -/
theorem quiescent_of_still {s : State q} {b : Bus} (hwork : s.NoWork b)
    (hidle : s.engine.biState = .idle) (hactive : s.engine.respActive = false) :
    s.Quiescent := by
  have hfree := Engine.State.slot_free_of_no_work hwork.counting hwork.offers hactive
  refine ⟨?_, hidle, ?_, hfree⟩
  · by_contra hp
    have hbusy := State.slot_busy_of_no_work hwork (by simpa using hp) hidle
    simp [hfree] at hbusy
  · apply State.flushState_of_not_flush
    exact (Bool.or_eq_false_iff.mp hwork.eviction).1

/-- What the service loop writes, in terms of the states that it sampled. -/
theorem serviceWrite_readReg (s s' s'' : State q) :
    serviceWrite (s.readReg addrBiStatus) (s'.readReg addrBiStatus) (s''.readReg addrStatus) =
      if s.engine.biState == .req then some addrBiReqAck
      else if s'.engine.biState != .idle then some addrBiRspSend
      else if s''.engine.respActive then some addrRespAck
      else none := by
  rw [serviceWrite, State.biStatus_reqValid, State.biStatus_active, State.status_valid]
  rfl

/-- A service write that did no work found the sequencer idle and no response offered. -/
theorem idle_of_performs {s : State q} {b : Bus} (hwork : s.NoWork b)
    (hperf : b.performs
      (if s.engine.biState == .req then some addrBiReqAck
        else if s.engine.biState != .idle then some addrBiRspSend
        else if s.engine.respActive then some addrRespAck
        else none)) :
    s.engine.biState = .idle ∧ s.engine.respActive = false := by
  have hbi := hwork.handshake
  have hconsumed := hwork.consumed
  cases hs : s.engine.biState with
  | req =>
      have hack : b.writes addrBiReqAck = true := by simpa [hs, Bus.performs] using hperf
      simp [State.biWork, hs, Bus.writeBiAck, hack] at hbi
  | waitRsp =>
      have hrsp : b.writes addrBiRspSend = true := by simpa [hs, Bus.performs] using hperf
      simp [State.biWork, hs, Bus.writeBiRsp, hrsp] at hbi
  | idle =>
      refine ⟨rfl, ?_⟩
      by_contra hactive
      rw [Bool.not_eq_false] at hactive
      have hack : b.writes addrRespAck = true := by
        simpa [hs, hactive, Bus.performs] using hperf
      have hready : (s.engineInputs b).s2mReady = true := hack
      simp [Engine.State.respConsumedThisCycle, hactive, hready] at hconsumed

/-- A service round lowers the debt unless there was nothing left to do. -/
theorem ServiceRound.progress {a b : ℕ} (h : ServiceRound x bus a b)
    (hrst : ∀ t, a ≤ t → (bus t).rstn = true) :
    (run x bus a).Quiescent ∨ (run x bus b).debt < (run x bus a).debt := by
  rw [or_iff_not_imp_right]
  intro hdebt
  have hhold : ∀ u, a ≤ u → u < b → (run x bus u).Holding (bus u) := by
    intro u h₁ h₂
    exact h.holding (hrst u h₁) h₁ h₂
  have hpay : ∀ u, a ≤ u → u < b →
      (run x bus (u + 1)).debt + (run x bus u).work (bus u) ≤ (run x bus u).debt := by
    intro u h₁ h₂
    exact run_debt_succ (hhold u h₁ h₂) (hrst (u + 1) (Nat.le_succ_of_le h₁))
  have hwork : ∀ u, a ≤ u → u < b → (run x bus u).NoWork (bus u) := by
    intro u h₁ h₂
    apply State.noWork_of_work
    exact @work_eq_zero_of_debt_le (fun t => (run x bus t).debt)
      (fun t => (run x bus t).work (bus t)) a b (Nat.le_of_not_lt hdebt) hpay u h₁ h₂
  have hstill : ∀ u, a ≤ u → u < b →
      (run x bus u).engine.biState = (run x bus a).engine.biState ∧
        (run x bus u).engine.respActive = (run x bus a).engine.respActive := by
    intro u h₁ h₂
    exact still_of_no_work hhold hwork h₁ h₂
  obtain ⟨p, p', r, w, hp, hp', hr, hw, hb, hperf, _⟩ := h
  have hpb := (hstill p hp (by omega)).1
  have hpb' := (hstill p' (by omega) (by omega)).1
  have hrb := (hstill r (by omega) (by omega)).2
  obtain ⟨hwb, hwr⟩ := hstill w (by omega) hb
  rw [serviceWrite_readReg, hpb, hpb', hrb, ← hwb, ← hwr] at hperf
  obtain ⟨hidle, hactive⟩ := idle_of_performs (hwork w (by omega) hb) hperf
  exact quiescent_of_still (hwork a le_rfl (by omega)) (hwb.symm.trans hidle)
    (hwr.symm.trans hactive)

theorem outstanding_eq_sum {a b : ℕ} (hab : a ≤ b)
    (hhold : ∀ u, a ≤ u → u < b → (run x bus u).Holding (bus u))
    (hrst : ∀ t, a ≤ t → (bus t).rstn = true) :
    (run x bus a).outstanding =
      ∑ t ∈ Finset.Ico a b, (run x bus t).acknowledged (bus t) + (run x bus b).outstanding := by
  induction b, hab using Nat.le_induction with
  | base => simp
  | succ b hab ih =>
      have hb := hhold b hab (Nat.lt_succ_self b)
      have hstep : (run x bus b).outstanding =
          (run x bus b).acknowledged (bus b) + (run x bus (b + 1)).outstanding := by
        rw [run_succ_of_rstn hb.rstn (hrst (b + 1) (Nat.le_succ_of_le hab))]
        exact State.outstanding_edge (run_engine_offerReady x bus b) hb
      have hbefore := ih fun u h₁ h₂ => hhold u h₁ (Nat.lt_succ_of_lt h₂)
      calc
        (run x bus a).outstanding
            = ∑ t ∈ Finset.Ico a b, (run x bus t).acknowledged (bus t) +
                ((run x bus b).acknowledged (bus b) + (run x bus (b + 1)).outstanding) := by
              rw [hbefore, ← hstep]
        _ = ∑ t ∈ Finset.Ico a (b + 1), (run x bus t).acknowledged (bus t) +
              (run x bus (b + 1)).outstanding := by
              rw [Finset.sum_Ico_succ_top hab, add_assoc]

/-- From every state of every run the service loop reaches a quiescent state,
and on the way exactly the pending and outstanding requests are answered, each
once, with its tag and type. -/
theorem service_terminates {T : ℕ} (h : ServedFrom x bus T) :
    ∃ T', T ≤ T' ∧ (run x bus T').Quiescent ∧
      ∑ t ∈ Finset.Ico T T', (run x bus t).acknowledged (bus t) = (run x bus T).outstanding := by
  obtain ⟨hrst, start, rfl, hround⟩ := h
  have hmono : Monotone start := monotone_nat_of_le_succ fun k => (hround k).lt.le
  have hle : ∀ k, start 0 ≤ start k := fun k => hmono (Nat.zero_le k)
  have hprogress : ∀ k, (run x bus (start k)).Quiescent ∨
      (run x bus (start (k + 1))).debt < (run x bus (start k)).debt := by
    intro k
    apply (hround k).progress
    intro t ht
    exact hrst t ((hle k).trans ht)
  obtain ⟨k, hk⟩ := @exists_round_of_descent (fun t => (run x bus t).debt) start
    (fun k => (run x bus (start k)).Quiescent) hprogress
  have hhold : ∀ u, start 0 ≤ u → u < start k → (run x bus u).Holding (bus u) := by
    intro u h₁ h₂
    obtain ⟨j, hj, hj'⟩ := exists_round h₁ h₂
    exact (hround j).holding (hrst u h₁) hj hj'
  refine ⟨start k, hle k, hk, ?_⟩
  rw [outstanding_eq_sum (hle k) hhold hrst, State.outstanding_of_quiescent hk, add_zero]

end Rounds

section Demonstration

set_option maxRecDepth 4000

/-- A write is fired with tag 3, and its response is acknowledged in cycle 4. -/
def servedWrite : ℕ → Bus
  | 0 => ⟨true, addrReqFire, true, 0x31⟩
  | 4 => ⟨true, addrRespAck, true, 0⟩
  | _ => Bus.idle

theorem quiescent_servedWrite (t : ℕ) : (run powerOnZero servedWrite (t + 5)).Quiescent := by
  induction t with
  | zero => exact ⟨by decide +kernel, by decide +kernel, by decide +kernel, by decide +kernel⟩
  | succ t ih =>
      rw [Nat.add_right_comm, run_succ_of_rstn rfl rfl]
      exact ih.edge (run_engine_offerReady _ _ _) rfl rfl

/-- Rounds of four cycles: three reads and the write. -/
theorem serviceRound_servedWrite :
    ∀ k, ServiceRound powerOnZero servedWrite (1 + 4 * k) (1 + 4 * (k + 1))
  | 0 => by
      refine ⟨1, 2, 3, 4, by omega, by omega, by omega, by omega, by omega, ?_, ?_⟩
      · have hack : serviceWrite ((run powerOnZero servedWrite 1).readReg addrBiStatus)
            ((run powerOnZero servedWrite 2).readReg addrBiStatus)
            ((run powerOnZero servedWrite 3).readReg addrStatus) = some addrRespAck := by
          decide +kernel
        rw [hack]
        rfl
      · intro t h₁ h₂ h₃
        obtain rfl | rfl | rfl : t = 1 ∨ t = 2 ∨ t = 3 := by omega
        all_goals rfl
  | k + 1 => by
      refine ⟨4 * k + 5, 4 * k + 1 + 5, 4 * k + 2 + 5, 4 * k + 3 + 5, by omega, by omega,
        by omega, by omega, by omega, ?_, ?_⟩
      · have h₀ := quiescent_servedWrite (4 * k)
        have h₁ := quiescent_servedWrite (4 * k + 1)
        have h₂ := (quiescent_servedWrite (4 * k + 2)).respActive (run_engine_offerReady _ _ _)
        simp only [serviceWrite_readReg, h₀.handshake, h₁.handshake, h₂]
        rfl
      · intro t h₁ _ _
        obtain ⟨u, rfl⟩ := Nat.exists_eq_add_of_le' (show 5 ≤ t by omega)
        rfl

theorem service_terminates_servedWrite :
    ∃ T', 1 ≤ T' ∧ (run powerOnZero servedWrite T').Quiescent ∧
      ∑ t ∈ Finset.Ico 1 T', (run powerOnZero servedWrite t).acknowledged (servedWrite t) =
        (run powerOnZero servedWrite 1).outstanding :=
  service_terminates ⟨fun t _ => by rw [servedWrite.eq_def]; split <;> rfl, fun k => 1 + 4 * k, rfl,
    serviceRound_servedWrite⟩

end Demonstration

end CxlLite.Shim
