import CxlLite.Shim.Registers

/-!
# A shown response

The payload of a response is read through the slot arrays by the offered tag.
Until software acknowledges it, neither the tag nor its slot changes.
-/

namespace CxlLite.Shim

open Engine Synchronous

variable {q : ShimParams}

namespace State

variable (s : State q)

theorem readReg_respTag : s.readReg addrRespTag = s.engine.s2mTag.setWidth 32 := rfl

theorem readReg_respRdata : s.readReg addrRespRdata = s.engine.s2mRdata.setWidth 32 := rfl

/-- The tag that software reads from `RESP_TAG`. -/
def shownTag : q.engine.Tag := (s.readReg addrRespTag).setWidth q.tagW

/-- `RESP_TAG` is wide enough for every tag. -/
theorem shownTag_eq : s.shownTag = s.engine.s2mTag := by
  have hle : q.tagW ≤ 32 := Nat.le_of_add_right_le q.tagW_add_le
  rw [shownTag, readReg_respTag]
  exact (BitVec.setWidth_setWidth_of_le _ hle).trans (BitVec.setWidth_eq _)

end State

/-- Two states show the same response in `STATUS`, `RESP_TAG` and `RESP_RDATA`. -/
structure SameResponse (s s' : State q) : Prop where
  status : s'.readReg addrStatus = s.readReg addrStatus
  tag : s'.readReg addrRespTag = s.readReg addrRespTag
  rdata : s'.readReg addrRespRdata = s.readReg addrRespRdata

section Held

variable {x : Undefined q} {bus : ℕ → Bus} {t t' : ℕ}

/-- A response that is not acknowledged stays offered, with its tag and slot. -/
theorem offer_held (hv : (run x bus t).engine.respActive = true) (htt : t ≤ t')
    (hno : ∀ w, t ≤ w → w < t' → (bus w).writeAck = false)
    (hrst : ∀ w, t ≤ w → w ≤ t' → (bus w).rstn = true) :
    (run x bus t').engine.respActive = true ∧
      (run x bus t').engine.respTag = (run x bus t).engine.respTag ∧
      (run x bus t').engine.slot (run x bus t).engine.respTag =
        (run x bus t).engine.slot (run x bus t).engine.respTag := by
  induction t', htt using Nat.le_induction with
  | base => exact ⟨hv, rfl, rfl⟩
  | succ n htn ih =>
      obtain ⟨hactive, htag, hslot⟩ := ih
        (fun w h₁ h₂ => hno w h₁ (Nat.lt_succ_of_lt h₂))
        (fun w h₁ h₂ => hrst w h₁ (Nat.le_succ_of_le h₂))
      have h₀ := hrst n htn (Nat.le_succ n)
      have hready : (ports x bus n).s2mReady = false := hno n htn (Nat.lt_succ_self n)
      have hoffer : (run x bus n).engine.OfferReady := by
        rw [run_engine]
        exact run_offerReady _ n
      obtain ⟨hactive', htag', hslot'⟩ := offer_kept hoffer hactive hready
      rw [run_succ_of_rstn h₀ (hrst (n + 1) (Nat.le_succ_of_le htn) le_rfl),
        State.edge_engine h₀]
      rw [htag] at htag' hslot'
      exact ⟨hactive', htag', hslot'.trans hslot⟩

/-- A `RESP_ACK` frees the offered tag and no other. -/
theorem freed_iff (hv : (run x bus t).engine.respActive = true) (hack : (bus t).writeAck = true)
    (g : q.engine.Tag) :
    (((run x bus t).engine.slot g).valid = true ∧
      ((run x bus (t + 1)).engine.slot g).valid = false) ↔ g = (run x bus t).engine.respTag := by
  have hoffer : (run x bus t).engine.OfferReady := by
    rw [run_engine]
    exact run_offerReady _ t
  have hconsume : (run x bus t).engine.respConsumedThisCycle (ports x bus t) = true := by
    rw [Engine.State.respConsumedThisCycle, hv]
    exact hack
  have hnext : (run x bus (t + 1)).engine.slot =
      (run x bus t).engine.slotNext (ports x bus t) := by
    rw [run_engine, run_engine, run_slot_succ]
  rw [hnext, Bool.eq_false_iff, ne_eq, slotNext_valid_iff hoffer]
  constructor
  · rintro ⟨hvalid, hno⟩
    by_contra hne
    exact hno (Or.inr ⟨hvalid, fun h => hne h.2.symm⟩)
  · rintro rfl
    have hvalid := (hoffer.consumed hconsume).1
    refine ⟨hvalid, ?_⟩
    rintro (haccept | ⟨_, hno⟩)
    · exact not_accept_of_valid hvalid haccept
    · exact hno ⟨hconsume, rfl⟩

/-- A shown response stays put until it is acknowledged, and the `RESP_ACK`
frees exactly the tag that was shown. -/
theorem response_held (hv : ((run x bus t).readReg addrStatus).getLsbD 0 = true) (htt : t ≤ t')
    (hno : ∀ w, t ≤ w → w < t' → (bus w).writeAck = false)
    (hrst : ∀ w, t ≤ w → w ≤ t' → (bus w).rstn = true) :
    SameResponse (run x bus t) (run x bus t') ∧
      ((bus t').writeAck = true → ∀ g,
        (((run x bus t').engine.slot g).valid = true ∧
          ((run x bus (t' + 1)).engine.slot g).valid = false) ↔
            g = (run x bus t).shownTag) := by
  rw [State.status_valid] at hv
  have hactive : (run x bus t).engine.respActive = true := hv
  obtain ⟨hactive', htag, hslot⟩ := offer_held hactive htt hno hrst
  constructor
  · constructor
    · simp only [State.readReg_status, Engine.State.s2mIsData, Engine.State.s2mValid, hactive,
        hactive', htag, hslot]
    · simp only [State.readReg_respTag, Engine.State.s2mTag, htag]
    · simp only [State.readReg_respRdata, Engine.State.s2mRdata, htag, hslot]
  · intro hack g
    rw [freed_iff hactive' hack, htag, State.shownTag_eq]
    rfl

end Held

section Demonstration

set_option maxRecDepth 4000

/-- A write of tag 3 is answered from cycle 3 on, a read of tag 5 is fired
meanwhile, and the answer is acknowledged in cycle 5. -/
def answeredWrite : ℕ → Bus
  | 0 => ⟨true, addrReqFire, true, 0x31⟩
  | 3 => ⟨true, addrReqFire, true, 0x50⟩
  | 5 => ⟨true, addrRespAck, true, 0⟩
  | _ => Bus.idle

theorem response_held_answeredWrite :
    SameResponse (run powerOnZero answeredWrite 3) (run powerOnZero answeredWrite 5) ∧
      ∀ g, (((run powerOnZero answeredWrite 5).engine.slot g).valid = true ∧
        ((run powerOnZero answeredWrite 6).engine.slot g).valid = false) ↔
          g = (run powerOnZero answeredWrite 3).shownTag := by
  have hno : ∀ w < 5, (answeredWrite w).writeAck = false := by decide
  have hrst : ∀ w < 6, (answeredWrite w).rstn = true := by decide
  obtain ⟨hsame, hfreed⟩ := @response_held defaultShim powerOnZero answeredWrite 3 5
    (by decide) (by omega) (fun w _ h => hno w h) (fun w _ h => hrst w (Nat.lt_succ_of_le h))
  exact ⟨hsame, hfreed rfl⟩

end Demonstration

end CxlLite.Shim
