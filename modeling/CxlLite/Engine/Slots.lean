import CxlLite.Engine.Run
import CxlLite.Synchronous.Latch
import Mathlib.Algebra.BigOperators.Intervals
import Mathlib.Algebra.Order.Group.Multiset
import Mathlib.Data.FinEnum

/-!
# Outstanding-transaction slots

The slot of a tag is a latch set by acceptance and cleared by consumption. The
offered tag always points at a slot whose countdown has ended, so the response
channel never consumes an empty slot.
-/

namespace CxlLite.Engine

open Synchronous

variable {p : Params}

section Arbitration

variable {s : State p} {i : Inputs p}

theorem eligible_iff {t : p.Tag} :
    s.eligible t = true ↔ (s.slot t).valid = true ∧ (s.slot t).cnt = 0 := by
  simp [State.eligible]

theorem eligible_of_arb (h : s.arb.1 = true) : s.eligible s.arb.2 = true :=
  firstMatch_sound h

theorem mem_tags (t : p.Tag) : t ∈ (List.range p.numTags).map (BitVec.ofNat p.tagW) := by
  apply List.mem_map.mpr
  exact ⟨t.toNat, List.mem_range.mpr t.isLt, by simp⟩

theorem arb_found_iff : s.arb.1 = true ↔ ∃ t, s.eligible t = true := by
  rw [State.arb, firstMatch_found_iff]
  constructor
  · rintro ⟨t, _, h⟩
    exact ⟨t, h⟩
  · rintro ⟨t, h⟩
    exact ⟨t, mem_tags t, h⟩

/-- The offered tag points at a slot that is ready to answer. -/
def State.OfferReady (s : State p) : Prop :=
  s.respActive = true → s.eligible s.respTag = true

/-- A consumed response comes from a slot that is ready to answer. -/
theorem State.OfferReady.consumed (hr : s.OfferReady) (h : s.respConsumedThisCycle i = true) :
    (s.slot s.respTag).valid = true ∧ (s.slot s.respTag).cnt = 0 := by
  apply eligible_iff.mp
  apply hr
  simp only [State.respConsumedThisCycle, Bool.and_eq_true] at h
  exact h.1

/-- An occupied slot is not given to another request. -/
theorem not_accept_of_valid {t : p.Tag} (h : (s.slot t).valid = true) :
    ¬ (s.acceptThisCycle i = true ∧ i.m2sTag = t) := by
  rintro ⟨ha, rfl⟩
  rw [slot_free_of_accept ha] at h
  cases h

theorem slotNext_of_accept (h : s.acceptThisCycle i = true) :
    s.slotNext i i.m2sTag = s.acceptSlot i (s.slot i.m2sTag) := by
  simp [State.slotNext, h]

theorem slotNext_of_consume (hr : s.OfferReady) (h : s.respConsumedThisCycle i = true) :
    s.slotNext i s.respTag = { s.slot s.respTag with valid := false } := by
  have hne := not_accept_of_valid (i := i) (hr.consumed h).1
  simp only [State.slotNext, Bool.and_eq_true, beq_iff_eq, hne, if_false, h, and_self, if_true]

theorem slotNext_of_other {t : p.Tag} (ha : ¬ (s.acceptThisCycle i = true ∧ i.m2sTag = t))
    (hc : ¬ (s.respConsumedThisCycle i = true ∧ s.respTag = t)) :
    s.slotNext i t =
      if (s.slot t).valid && (s.slot t).cnt != 0 then
        { s.slot t with cnt := (s.slot t).cnt - 1 }
      else s.slot t := by
  simp only [State.slotNext, Bool.and_eq_true, beq_iff_eq, ha, hc, if_false]

/-- Countdown leaves the request data of a slot alone. -/
theorem slotNext_data_of_other {t : p.Tag}
    (ha : ¬ (s.acceptThisCycle i = true ∧ i.m2sTag = t))
    (hc : ¬ (s.respConsumedThisCycle i = true ∧ s.respTag = t)) :
    (s.slotNext i t).valid = (s.slot t).valid ∧
      (s.slotNext i t).isWrite = (s.slot t).isWrite ∧
      (s.slotNext i t).rdata = (s.slot t).rdata := by
  rw [slotNext_of_other ha hc]
  split <;> exact ⟨rfl, rfl, rfl⟩

/-- A slot that may answer is left alone until its response is consumed. -/
theorem slotNext_of_eligible {t : p.Tag} (h : s.eligible t = true)
    (hc : ¬ (s.respConsumedThisCycle i = true ∧ s.respTag = t)) : s.slotNext i t = s.slot t := by
  obtain ⟨hv, hz⟩ := eligible_iff.mp h
  rw [slotNext_of_other (not_accept_of_valid hv) hc]
  simp [hz]

/-- Which slots are occupied after a cycle. -/
theorem slotNext_valid_iff (hr : s.OfferReady) (t : p.Tag) :
    (s.slotNext i t).valid = true ↔
      (s.acceptThisCycle i = true ∧ i.m2sTag = t) ∨
        (s.slot t).valid = true ∧ ¬ (s.respConsumedThisCycle i = true ∧ s.respTag = t) := by
  by_cases ha : s.acceptThisCycle i = true ∧ i.m2sTag = t
  · obtain ⟨ha, rfl⟩ := ha
    simp [slotNext_of_accept ha, State.acceptSlot, ha]
  by_cases hc : s.respConsumedThisCycle i = true ∧ s.respTag = t
  · obtain ⟨hc, rfl⟩ := hc
    simp only [slotNext_of_consume hr hc, ha, hc, Bool.false_eq_true, and_self, not_true_eq_false,
      and_false, or_self]
  · rw [(slotNext_data_of_other ha hc).1]
    simp only [ha, hc, not_false_eq_true, and_true, false_or]

/-- An offer that is not consumed stays as it is, together with its slot. -/
theorem offer_kept (hr : s.OfferReady) (h : s.respActive = true) (hn : i.s2mReady = false) :
    (s.edge i).respActive = true ∧ (s.edge i).respTag = s.respTag ∧
      (s.edge i).slot s.respTag = s.slot s.respTag := by
  refine ⟨?_, ?_, ?_⟩
  · simp [State.edge, State.respActiveNext, h, hn]
  · simp [State.edge, State.respTagNext, h]
  · apply slotNext_of_eligible (hr h)
    simp [State.respConsumedThisCycle, hn]

theorem edge_offerReady (hr : s.OfferReady) : (s.edge i).OfferReady := by
  intro hactive
  have hslot : (s.edge i).slot = s.slotNext i := rfl
  simp only [State.edge, State.respActiveNext] at hactive
  cases hra : s.respActive with
  | false =>
      have hfound : s.arb.1 = true := by simpa [hra] using hactive
      have htag : (s.edge i).respTag = s.arb.2 := by
        simp [State.edge, State.respTagNext, hra, hfound]
      have helig := eligible_of_arb hfound
      have hsame : s.slotNext i s.arb.2 = s.slot s.arb.2 := by
        apply slotNext_of_eligible helig
        simp [State.respConsumedThisCycle, hra]
      rw [eligible_iff, htag, hslot, hsame]
      exact eligible_iff.mp helig
  | true =>
      have hready : i.s2mReady = false := by simpa [hra] using hactive
      obtain ⟨_, htag, hsame⟩ := offer_kept hr hra hready
      rw [eligible_iff, htag, hsame]
      exact eligible_iff.mp (hr hra)

theorem reset_offerReady (s : State p) : s.reset.OfferReady := by
  intro h
  simp at h

theorem settle_offerReady (hr : s.OfferReady) : (s.settle i).OfferReady := by
  rw [State.settle]
  split
  · exact hr
  · exact reset_offerReady s

theorem step_offerReady (hr : s.OfferReady) : (s.step i).OfferReady := by
  rw [State.step]
  split
  · exact edge_offerReady hr
  · exact reset_offerReady _

end Arbitration

section Latches

variable (inp : ℕ → Inputs p)

theorem run_offerReady (t : ℕ) : (run inp t).OfferReady := by
  apply (machine p).run_invariant (P := State.OfferReady)
  · intro h
    simp [powerOn] at h
  · intro _ _
    exact settle_offerReady
  · intro _ _
    exact step_offerReady

theorem slot_valid_of_consumes {g : p.Tag} {t : ℕ} (h : ConsumesTag inp g t) :
    ((run inp t).slot g).valid = true := by
  obtain ⟨hc, rfl⟩ := h
  exact ((run_offerReady inp t).consumed hc).1

/-- The slot of a tag is set by acceptance and cleared by consumption. -/
theorem slot_latch (g : p.Tag) :
    Latch (fun t => ((run inp t).slot g).valid = true) (AcceptsTag inp g)
      (ConsumesTag inp g) where
  init := by simp [run_zero, powerOn]
  set_free t h := by
    obtain ⟨ha, rfl⟩ := h
    simp [slot_free_of_accept ha]
  clear_held _ := slot_valid_of_consumes inp
  next t := by
    rw [run_slot_succ]
    exact slotNext_valid_iff (run_offerReady inp t) g

/-- While a request is unanswered, its slot holds what was captured at acceptance. -/
theorem slot_of_open {g : p.Tag} {u t : ℕ}
    (h : Open (AcceptsTag inp g) (ConsumesTag inp g) u t) :
    ((run inp t).slot g).valid = true ∧
      ((run inp t).slot g).isWrite = (inp u).m2sIsWrite ∧
      ((inp u).m2sIsWrite = false →
        ((run inp t).slot g).rdata = (run inp u).readCapture (inp u)) := by
  induction t with
  | zero => exact absurd h.1 (Nat.not_lt_zero u)
  | succ t ih =>
      rw [run_slot_succ]
      rcases open_succ_iff.mp h with ⟨rfl, ha, rfl⟩ | ⟨hopen, ha, hc⟩
      · rw [slotNext_of_accept ha]
        refine ⟨rfl, rfl, ?_⟩
        intro hr
        simp [State.acceptSlot, hr]
      · obtain ⟨hv, hw, hd⟩ := slotNext_data_of_other ha hc
        rw [hv, hw, hd]
        exact ih hopen

/-- An offered response answers an acceptance that is still open. -/
theorem offered_open {t : ℕ} (h : (run inp t).s2mValid = true) :
    ∃ u, Open (AcceptsTag inp (run inp t).s2mTag) (ConsumesTag inp (run inp t).s2mTag) u t :=
  ((slot_latch inp _).held_iff_open t).mp (eligible_iff.mp (run_offerReady inp t h)).1

/-- The outputs of an offered response are those of the request it answers. -/
theorem offered_payload {u t : ℕ}
    (h : Open (AcceptsTag inp (run inp t).s2mTag) (ConsumesTag inp (run inp t).s2mTag) u t) :
    (run inp t).s2mIsData = !(inp u).m2sIsWrite ∧
      ((inp u).m2sIsWrite = false →
        (run inp t).s2mRdata = (run inp u).readCapture (inp u)) := by
  obtain ⟨_, hw, hd⟩ := slot_of_open inp h
  constructor
  · exact congrArg (!·) hw
  · exact hd

end Latches

end CxlLite.Engine
