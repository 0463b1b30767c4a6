import CxlLite.Shim.Registers

/-!
# What reset leaves behind

Reset clears the pending register and the offered response, but the slots have
no reset. A reset is clean exactly when no tag is outstanding as it is applied.
-/

namespace CxlLite.Shim

open Engine Synchronous

variable {q : ShimParams}

section Statements

variable (x : Undefined q) (bus : ℕ → Bus)

/-- `STATUS` shows a response in cycle `t`. -/
def showsResponse (t : ℕ) : Bool := ((run x bus t).readReg addrStatus).getLsbD 0

/-- The response shown in cycle `t` answers the request whose `REQ_FIRE`
completed in cycle `f`. -/
def AnswersFire (f t : ℕ) : Prop :=
  ∃ u, Open (Loads x bus) (Drops x bus) f u ∧
    Open (AcceptsTag (ports x bus) (run x bus t).engine.s2mTag)
      (ConsumesTag (ports x bus) (run x bus t).engine.s2mTag) u t ∧
    (bus f).writeTag q = (run x bus t).engine.s2mTag ∧
    (bus f).writeBit = !(run x bus t).engine.s2mIsData

/-- The reset cycle `r` leaves no request behind. -/
structure ResetClean (r : ℕ) : Prop where
  free : ∀ g, ((run x bus (r + 1)).engine.slot g).valid = false
  fresh : ∀ t, r < t → showsResponse x bus t = true → ∃ f, r < f ∧ AnswersFire x bus f t
  silent : ∀ t, r < t → (∀ u, r < u → u < t → accepts x bus u = false) →
    showsResponse x bus t = false

end Statements

variable {x : Undefined q} {bus : ℕ → Bus} {r : ℕ}

theorem showsResponse_iff {t : ℕ} :
    showsResponse x bus t = true ↔ (Engine.run (ports x bus) t).s2mValid = true := by
  rw [showsResponse, State.status_valid, run_engine]

/-- A cycle in reset keeps every slot occupied that was occupied. -/
theorem slot_valid_of_reset (h : (bus r).rstn = false) (g : q.engine.Tag) :
    ((run x bus (r + 1)).engine.slot g).valid = ((run x bus r).engine.slot g).valid := by
  obtain ⟨s, hs⟩ := run_eq_reset (x := x) h
  have haccept : (run x bus r).engine.acceptThisCycle (ports x bus r) = false := by
    have hvalid : (ports x bus r).m2sValid = false := congrArg State.pendingValid hs
    simp [Engine.State.acceptThisCycle, hvalid]
  have hconsume : (run x bus r).engine.respConsumedThisCycle (ports x bus r) = false := by
    have hactive : (run x bus r).engine.respActive = false :=
      congrArg (fun s => s.engine.respActive) hs
    simp [Engine.State.respConsumedThisCycle, hactive]
  have hnext : (run x bus (r + 1)).engine.slot =
      (run x bus r).engine.slotNext (ports x bus r) := by
    rw [run_engine, run_engine, run_slot_succ]
  rw [hnext]
  exact (slotNext_data_of_other (by simp [haccept]) (by simp [hconsume])).1

/-- A request accepted after reset was fired after it. -/
theorem fired_after_reset (h : (bus r).rstn = false) {u : ℕ} (hu : r < u)
    (hacc : accepts x bus u = true) : ∃ f, r < f ∧ Open (Loads x bus) (Drops x bus) f u := by
  obtain ⟨f, hf⟩ := (pending_latch.held_iff_open u).mp (accepts_iff.mp hacc).1
  refine ⟨f, ?_, hf⟩
  by_contra hfr
  rcases Nat.eq_or_lt_of_le (Nat.le_of_not_lt hfr) with rfl | hlt
  · rw [(fires_iff.mp hf.2.1.1).1] at h
    cases h
  · -- the request would have been held through the reset
    have hheld : (run x bus r).pendingValid = true := by
      apply pending_latch.held_of_set hf.2.1 hlt
      intro w h₁ h₂
      exact (hf.2.2 w h₁ (h₂.trans hu)).2
    rw [rstn_of_pendingValid hheld] at h
    cases h

/-- A slot that was free after reset is occupied by a request accepted after it. -/
theorem accepted_after_reset {g : q.engine.Tag} {t : ℕ}
    (hfree : ((run x bus (r + 1)).engine.slot g).valid = false) (ht : r < t)
    (hv : ((run x bus t).engine.slot g).valid = true) :
    ∃ u, r < u ∧ Open (AcceptsTag (ports x bus) g) (ConsumesTag (ports x bus) g) u t := by
  rw [run_engine] at hfree hv
  obtain ⟨d, rfl⟩ := Nat.exists_eq_add_of_le' (Nat.succ_le_of_lt ht)
  have hlatch := (slot_latch (ports x bus) g).drop (k := r + 1) (by simp [hfree])
  obtain ⟨u, hud, hu, hno⟩ := (hlatch.held_iff_open d).mp hv
  refine ⟨u + (r + 1), by omega, by omega, hu, ?_⟩
  intro w h₁ h₂
  obtain ⟨v, rfl⟩ := Nat.exists_eq_add_of_le' (show r + 1 ≤ w by omega)
  exact hno v (by omega) (by omega)

theorem fresh_of_free (h : (bus r).rstn = false)
    (hfree : ∀ g, ((run x bus (r + 1)).engine.slot g).valid = false) {t : ℕ} (ht : r < t)
    (hshow : showsResponse x bus t = true) : ∃ f, r < f ∧ AnswersFire x bus f t := by
  rw [showsResponse_iff] at hshow
  have hslot := (eligible_iff.mp (run_offerReady _ t hshow)).1
  rw [← run_engine] at hslot
  obtain ⟨u, hru, hu⟩ := accepted_after_reset (hfree _) ht hslot
  obtain ⟨hacc, htag⟩ := hu.2.1
  obtain ⟨f, hrf, hf⟩ := fired_after_reset h hru ((accepts_eq x bus u).trans hacc)
  obtain ⟨hftag, hfwrite⟩ := pending_of_open hf
  rw [run_engine] at hu
  have hisData := (offered_payload (ports x bus) hu).1
  refine ⟨f, hrf, u, hf, by rwa [run_engine], hftag.symm.trans htag, ?_⟩
  rw [run_engine, hisData, ← hfwrite, Bool.not_not]
  rfl

/-- A reset leaves no request behind if and only if no tag is outstanding when
it is applied. -/
theorem resetClean_iff (h : (bus r).rstn = false) :
    ResetClean x bus r ↔ ∀ g, ((run x bus r).engine.slot g).valid = false := by
  constructor
  · intro hc g
    rw [← slot_valid_of_reset h]
    exact hc.free g
  · intro hfree
    have hnext : ∀ g, ((run x bus (r + 1)).engine.slot g).valid = false := by
      intro g
      rw [slot_valid_of_reset h]
      exact hfree g
    constructor
    · exact hnext
    · intro t ht hshow
      exact fresh_of_free h hnext ht hshow
    · intro t ht hno
      rw [Bool.eq_false_iff]
      intro hshow
      obtain ⟨f, hrf, u, hf, hu, _⟩ := fresh_of_free h hnext ht hshow
      have hacc := hno u (hrf.trans hf.1) hu.1
      rw [accepts_eq, hu.2.1.1] at hacc
      cases hacc

section Demonstration

set_option maxRecDepth 4000

/-- A fired write is acknowledged in cycle 4, and reset follows in cycle 6. -/
def resetAfterAck : ℕ → Bus
  | 0 => ⟨true, addrReqFire, true, 1⟩
  | 4 => ⟨true, addrRespAck, true, 0⟩
  | 6 => { Bus.idle with rstn := false }
  | _ => Bus.idle

theorem resetClean_resetAfterAck : ResetClean powerOnZero resetAfterAck 6 :=
  (resetClean_iff rfl).mpr (by decide +kernel)

/-- A fired read is accepted in cycle 1, and reset follows in cycle 2. -/
def resetAfterAccept : ℕ → Bus
  | 0 => ⟨true, addrReqFire, true, 0⟩
  | 2 => { Bus.idle with rstn := false }
  | _ => Bus.idle

/-- The read accepted before the reset is answered after it. -/
theorem not_resetClean :
    ¬ ∀ (x : Undefined defaultShim) (bus : ℕ → Bus) (r : ℕ), (bus r).rstn = false →
      ResetClean x bus r := by
  intro h
  have hshows : showsResponse powerOnZero resetAfterAccept 6 = true := by decide +kernel
  rw [(h powerOnZero resetAfterAccept 2 rfl).silent 6 (by omega)] at hshows
  · cases hshows
  · intro u h₁ h₂
    obtain rfl | rfl | rfl : u = 3 ∨ u = 4 ∨ u = 5 := by omega
    all_goals decide

end Demonstration

end CxlLite.Shim
