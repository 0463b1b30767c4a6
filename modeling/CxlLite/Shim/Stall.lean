import CxlLite.Shim.Debt

/-!
# A stalled `REQ_FIRE`

A bus master that holds a stalled write can serve neither a handshake nor a
response. The stall ends exactly when the pending request needs neither.
-/

namespace CxlLite.Shim

open Engine Synchronous

variable {q : ShimParams}

/-- The pending request needs no further bus traffic: its tag is free, no
handshake is in flight and its address is Device-Biased. -/
def State.Drainable (s : State q) : Prop :=
  (s.engine.slot s.pendingTag).valid = false ∧ s.engine.biState = .idle ∧
    s.engine.bias s.reqAddr = false

instance (s : State q) : Decidable s.Drainable := inferInstanceAs (Decidable (_ ∧ _ ∧ _))

/-- From cycle `T` on the master keeps its `REQ_FIRE` write on the bus while it is stalled. -/
def HoldsFire (x : Undefined q) (bus : ℕ → Bus) (T : ℕ) : Prop :=
  (bus T).rstn = true ∧ (bus T).writeFire = true ∧
    ∀ t, T ≤ t → (run x bus t).avsWaitrequest (bus t) = true → bus (t + 1) = bus t

section Edge

variable {s : State q} {b : Bus}

theorem drainable_of_ready (h : s.m2sReady b = true) : s.Drainable := by
  simp only [State.m2sReady, Engine.State.m2sReady, Bool.and_eq_true, Bool.not_eq_true',
    beq_iff_eq] at h
  exact ⟨h.1.1.1.1, h.1.1.1.2, h.1.1.2⟩

theorem holding_of_fire (hrst : b.rstn = true) (hw : b.writeFire = true)
    (hp : s.pendingValid = true) : s.Holding b where
  rstn := hrst
  addr := (Bus.fireOnly hw).reqAddr
  bias := (Bus.fireOnly hw).bias
  bypass := (Bus.fireOnly hw).bypass
  fire _ := hp

/-- While the stalled write is held, the pending request stays as drainable as it was. -/
theorem drainable_edge (hrst : b.rstn = true) (hw : b.writeFire = true)
    (hp : s.pendingValid = true) (hready : s.m2sReady b = false) :
    (s.edge b).Drainable ↔ s.Drainable := by
  have hhold := holding_of_fire hrst hw hp
  have honly := Bus.fireOnly hw
  have htag : (s.edge b).pendingTag = s.pendingTag := by
    simp [State.edge, State.pendingTagNext, hp]
  have hslot : ((s.edge b).engine.slot s.pendingTag).valid =
      (s.engine.slot s.pendingTag).valid := by
    rw [hhold.engine]
    refine (slotNext_data_of_other (s := s.engine) (i := s.engineInputs b) ?_ ?_).1
    · simp [← State.accepting_eq, State.accepting, hready]
    · simp [Engine.State.respConsumedThisCycle, State.engineInputs, honly.ack]
  have hflip : s.engine.biFlipNow (s.engineInputs b) = false := by
    simp [Engine.State.biFlipNow, State.engineInputs, honly.biRsp]
  have hbias : (s.edge b).engine.bias = s.engine.bias := by
    rw [State.bias_edge hhold, hflip]
    rfl
  have hstate : (s.edge b).engine.biState = s.engine.biStateNext (s.engineInputs b) := by
    rw [hhold.engine]; rfl
  simp only [State.Drainable]
  rw [htag, hslot, hhold.reqAddr, hbias, hstate]
  refine and_congr_right fun _ => and_congr_left fun hdev => ?_
  rw [Engine.State.biStateNext]
  cases hs : s.engine.biState with
  | idle =>
      have hwant : s.engine.wantBi (s.engineInputs b) = false := by
        simp [Engine.State.wantBi, Engine.State.biasQueryRdData, State.engineInputs, hdev]
      simp [hwant]
  | req => simp [State.engineInputs, honly.biAck]
  | waitRsp => simp [State.engineInputs, honly.biRsp]

end Edge

section Runs

variable {x : Undefined q} {bus : ℕ → Bus} {T : ℕ}

theorem waitrequest_iff {t : ℕ} : (run x bus t).avsWaitrequest (bus t) = true ↔
    (bus t).writeFire = true ∧ (run x bus t).pendingValid = true := by
  simp [State.avsWaitrequest]

/-- A cycle in which the held write is stalled. -/
structure Waiting (x : Undefined q) (bus : ℕ → Bus) (t : ℕ) : Prop where
  rstn : (bus t).rstn = true
  fire : (bus t).writeFire = true
  pending : (run x bus t).pendingValid = true

theorem Waiting.run_succ (h : Waiting x bus T) (hnext : bus (T + 1) = bus T) :
    run x bus (T + 1) = (run x bus T).edge (bus T) :=
  run_succ_of_rstn h.rstn (hnext ▸ h.rstn)

/-- A stalled request that the engine does not take waits on. -/
theorem Waiting.succ (h : Waiting x bus T) (hnext : bus (T + 1) = bus T)
    (hready : (run x bus T).m2sReady (bus T) = false) : Waiting x bus (T + 1) where
  rstn := hnext ▸ h.rstn
  fire := hnext ▸ h.fire
  pending := by
    rw [h.run_succ hnext, (holding_of_fire h.rstn h.fire h.pending).pendingValid, h.pending,
      hready]
    rfl

/-- While the write is stalled, the pending request stays as drainable as it was. -/
theorem Waiting.drainable_succ (h : Waiting x bus T) (hnext : bus (T + 1) = bus T)
    (hready : (run x bus T).m2sReady (bus T) = false) :
    (run x bus (T + 1)).Drainable ↔ (run x bus T).Drainable := by
  rw [h.run_succ hnext]
  exact drainable_edge h.rstn h.fire h.pending hready

/-- A request that needs further bus traffic is stalled for good. -/
theorem waiting_of_not_drainable (hh : HoldsFire x bus T) (h : Waiting x bus T)
    (hd : ¬ (run x bus T).Drainable) {t : ℕ} (ht : T ≤ t) :
    Waiting x bus t ∧ ¬ (run x bus t).Drainable := by
  induction t, ht using Nat.le_induction with
  | base => exact ⟨h, hd⟩
  | succ t ht ih =>
      obtain ⟨hw, hd⟩ := ih
      have hnext := hh.2.2 t ht (waitrequest_iff.mpr ⟨hw.fire, hw.pending⟩)
      have hready : (run x bus t).m2sReady (bus t) = false := by
        rw [Bool.eq_false_iff]
        intro hr
        exact hd (drainable_of_ready hr)
      constructor
      · exact hw.succ hnext hready
      · rwa [hw.drainable_succ hnext hready]

/-- A request that needs no bus traffic pays off its debt in every stalled cycle. -/
theorem debt_lt_of_drainable {t : ℕ} (hw : Waiting x bus t) (hnext : bus (t + 1) = bus t)
    (hd : (run x bus t).Drainable) : (run x bus (t + 1)).debt < (run x bus t).debt := by
  have hstep := run_debt_succ (holding_of_fire hw.rstn hw.fire hw.pending) (hnext ▸ hw.rstn)
  have hwork : (run x bus t).work (bus t) ≠ 0 := by
    intro hzero
    have hbusy := State.slot_busy_of_no_work (State.noWork_of_work hzero) hw.pending hd.2.1
    simp [hd.1] at hbusy
  omega

/-- A stall that never ends keeps a drainable request pending and drainable. -/
theorem drainable_of_stalled (hh : HoldsFire x bus T) (hd : (run x bus T).Drainable)
    (hall : ∀ t, T ≤ t → (run x bus t).avsWaitrequest (bus t) = true) {t : ℕ} (ht : T ≤ t) :
    Waiting x bus t ∧ (run x bus t).Drainable := by
  induction t, ht using Nat.le_induction with
  | base =>
      obtain ⟨hfire, hpend⟩ := waitrequest_iff.mp (hall T le_rfl)
      exact ⟨⟨hh.1, hfire, hpend⟩, hd⟩
  | succ t ht ih =>
      obtain ⟨hw, hd⟩ := ih
      have hnext := hh.2.2 t ht (hall t ht)
      have hpend := (waitrequest_iff.mp (hall (t + 1) (Nat.le_succ_of_le ht))).2
      have hready : (run x bus t).m2sReady (bus t) = false := by
        rw [hw.run_succ hnext, (holding_of_fire hw.rstn hw.fire hw.pending).pendingValid] at hpend
        simpa [hw.pending] using hpend
      constructor
      · exact hw.succ hnext hready
      · rwa [hw.drainable_succ hnext hready]

/-- A stalled `REQ_FIRE` that the master holds comes to an end if and only if
the pending request needs no further bus traffic. -/
theorem stalled_fire_ends_iff (hh : HoldsFire x bus T)
    (hw : (run x bus T).avsWaitrequest (bus T) = true) :
    (∃ t, T ≤ t ∧ (run x bus t).avsWaitrequest (bus t) = false) ↔ (run x bus T).Drainable := by
  obtain ⟨hfire, hpend⟩ := waitrequest_iff.mp hw
  constructor
  · rintro ⟨t, ht, hfree⟩
    by_contra hd
    have hstill := (waiting_of_not_drainable hh ⟨hh.1, hfire, hpend⟩ hd ht).1
    simp [waitrequest_iff.mpr ⟨hstill.fire, hstill.pending⟩] at hfree
  · intro hd
    by_contra hnever
    have hall : ∀ t, T ≤ t → (run x bus t).avsWaitrequest (bus t) = true := by
      intro t ht
      by_contra hne
      exact hnever ⟨t, ht, Bool.eq_false_iff.mpr hne⟩
    have hfall : ∀ k, False ∨ (run x bus (T + (k + 1))).debt < (run x bus (T + k)).debt := by
      intro k
      right
      have hk : T ≤ T + k := Nat.le_add_right T k
      obtain ⟨hwk, hdk⟩ := drainable_of_stalled hh hd hall hk
      exact debt_lt_of_drainable hwk (hh.2.2 (T + k) hk (hall _ hk)) hdk
    obtain ⟨_, hfalse⟩ :=
      @exists_round_of_descent (fun t => (run x bus t).debt) (T + ·) (fun _ => False) hfall
    exact hfalse

end Runs

section Demonstration

set_option maxRecDepth 4000

/-- The same `REQ_FIRE` in every cycle. -/
def repeatedFire (_ : ℕ) : Bus := ⟨true, addrReqFire, true, 0⟩

theorem stalled_fire_ends_repeatedFire :
    ∃ t, 1 ≤ t ∧ (run powerOnZero repeatedFire t).avsWaitrequest (repeatedFire t) = false :=
  (stalled_fire_ends_iff ⟨rfl, rfl, fun _ _ _ => rfl⟩ (by decide)).mpr
    (by decide)

/-- Two fires at an address that was made Host-Biased. -/
def firesAtHostBiased (t : ℕ) : Bus :=
  ⟨true, if t = 0 then addrBiasSet else addrReqFire, true, 1⟩

/-- The second fire is stalled for good, since nobody can serve the handshake
of the first. -/
theorem not_stalled_fire_ends :
    ¬ ∀ (x : Undefined defaultShim) (bus : ℕ → Bus) (T : ℕ), HoldsFire x bus T →
      (run x bus T).avsWaitrequest (bus T) = true →
        ∃ t, T ≤ t ∧ (run x bus t).avsWaitrequest (bus t) = false := by
  intro h
  have hwait : Waiting powerOnZero firesAtHostBiased 2 := ⟨rfl, rfl, by decide⟩
  have hholds : HoldsFire powerOnZero firesAtHostBiased 2 := by
    refine ⟨rfl, rfl, fun t ht _ => ?_⟩
    rw [firesAtHostBiased, firesAtHostBiased, if_neg (by omega), if_neg (by omega)]
  have hstuck : ¬ (run powerOnZero firesAtHostBiased 2).Drainable := by decide
  obtain ⟨t, ht, hfree⟩ := h powerOnZero firesAtHostBiased 2 hholds
    (waitrequest_iff.mpr ⟨hwait.fire, hwait.pending⟩)
  have hstill := (waiting_of_not_drainable hholds hwait hstuck ht).1
  simp [waitrequest_iff.mpr ⟨hstill.fire, hstill.pending⟩] at hfree

end Demonstration

end CxlLite.Shim
