import CxlLite.Engine.Completion
import CxlLite.Synchronous.Descent

/-!
# Progress of accepted requests

A slot owes one cycle for each count, one for its offer and one for its
consumption. Every cycle pays what it counts, offers or consumes, and only an
acceptance adds to the debt.
-/

namespace CxlLite.Engine

open Synchronous

variable {p : Params}

def Slot.debt (σ : Slot p) : ℕ := if σ.valid then σ.cnt.toNat + 2 else 0

/-- The slot counts down in this cycle. -/
def Slot.counting (σ : Slot p) : Bool := σ.valid && σ.cnt != 0

namespace State

variable (s : State p) (i : Inputs p)

def slotsDebt : ℕ := ∑ t, (s.slot t).debt

def offerDebt : ℕ := (!s.respActive).toNat

/-- What the response path still has to do. -/
def responseDebt : ℕ := s.slotsDebt + s.offerDebt

/-- The number of slots that count down in this cycle. -/
def counting : ℕ := ∑ t, (s.slot t).counting.toNat

/-- A response is about to be offered. -/
def offers : Bool := !s.respActive && s.arb.1

/-- What the response path does in this cycle. -/
def responseWork : ℕ :=
  s.counting + s.offers.toNat + (s.respConsumedThisCycle i).toNat

variable {s i}

theorem acceptSlot_debt_le (σ : Slot p) : (s.acceptSlot i σ).debt ≤ p.readExtraLatency + 2 := by
  refine Nat.add_le_add_right ?_ 2
  change BitVec.toNat (if _ then _ else _) ≤ _
  split
  · exact Nat.zero_le _
  · exact (BitVec.toNat_ofNat ..).le.trans (Nat.mod_le _ _)

theorem cnt_pred_toNat {c : p.Cnt} (hc : c ≠ 0) : (c - 1).toNat + 1 = c.toNat := by
  have hpos : 0 < c.toNat :=
    Nat.pos_of_ne_zero fun hz => hc (BitVec.eq_of_toNat_eq (by simpa using hz))
  have hlt := c.isLt
  have hone : (1 : p.Cnt).toNat = 1 := by
    simpa using Nat.mod_eq_of_lt (show 1 < 2 ^ p.cntW by omega)
  rw [BitVec.toNat_sub_of_le (BitVec.le_def.mpr (by omega)), hone]
  omega

/-- A slot left to itself pays its countdown. -/
theorem debt_of_countdown (σ : Slot p) :
    Slot.debt (if σ.valid && σ.cnt != 0 then { σ with cnt := σ.cnt - 1 } else σ) +
      σ.counting.toNat = σ.debt := by
  rw [Slot.counting]
  cases hcount : σ.valid && σ.cnt != 0 with
  | false => rfl
  | true =>
      obtain ⟨hv, hc⟩ := Bool.and_eq_true_iff.mp hcount
      have hpred := cnt_pred_toNat (bne_iff_ne.mp hc)
      change Slot.debt { σ with cnt := σ.cnt - 1 } + 1 = σ.debt
      rw [Slot.debt, Slot.debt, if_pos hv, if_pos hv, ← hpred]

/-- The debt of one slot over one cycle. -/
theorem slot_debt_next (hr : s.OfferReady) (t : p.Tag) :
    (s.slotNext i t).debt + (s.slot t).counting.toNat +
        (if s.respConsumedThisCycle i = true ∧ s.respTag = t then 2 else 0) ≤
      (s.slot t).debt +
        (if s.acceptThisCycle i = true ∧ i.m2sTag = t then p.readExtraLatency + 2 else 0) := by
  by_cases ha : s.acceptThisCycle i = true ∧ i.m2sTag = t
  · obtain ⟨ha, rfl⟩ := ha
    have hfree := slot_free_of_accept ha
    have hc : ¬ (s.respConsumedThisCycle i = true ∧ s.respTag = i.m2sTag) := by
      rintro ⟨hc, ht⟩
      exact not_accept_of_valid (hr.consumed hc).1 ⟨ha, ht.symm⟩
    have hle := acceptSlot_debt_le (s := s) (i := i) (s.slot i.m2sTag)
    rw [slotNext_of_accept ha, if_neg hc, if_pos ⟨ha, rfl⟩]
    simp only [Slot.counting, hfree, Bool.false_and, Bool.toNat_false]
    omega
  by_cases hc : s.respConsumedThisCycle i = true ∧ s.respTag = t
  · obtain ⟨hc, rfl⟩ := hc
    obtain ⟨hv, hz⟩ := hr.consumed hc
    rw [slotNext_of_consume hr hc, if_neg ha, if_pos ⟨hc, rfl⟩]
    simp [Slot.debt, Slot.counting, hv, hz]
  · rw [slotNext_of_other ha hc, if_neg ha, if_neg hc]
    exact (debt_of_countdown _).le

/-- The debt of all slots over one cycle. -/
theorem slotsDebt_next (hr : s.OfferReady) {s' : State p} (hs' : s'.slot = s.slotNext i) :
    s'.slotsDebt + s.counting + (if s.respConsumedThisCycle i then 2 else 0) ≤
      s.slotsDebt + (if s.acceptThisCycle i then p.readExtraLatency + 2 else 0) := by
  have hsum := Finset.sum_le_sum fun t (_ : t ∈ Finset.univ) => slot_debt_next (i := i) hr t
  simp only [Finset.sum_add_distrib, ite_and, Finset.sum_ite_irrel, Finset.sum_ite_eq,
    Finset.mem_univ, if_true, Finset.sum_const_zero] at hsum
  rw [slotsDebt, hs']
  exact hsum

/-- Every cycle pays what the response path does; an acceptance adds its latency. -/
theorem responseDebt_edge (hr : s.OfferReady) :
    (s.edge i).responseDebt + s.responseWork i ≤
      s.responseDebt + (if s.acceptThisCycle i then p.readExtraLatency + 2 else 0) := by
  have hslots : (s.edge i).slotsDebt + s.counting +
      (if s.respConsumedThisCycle i then 2 else 0) ≤
        s.slotsDebt + (if s.acceptThisCycle i then p.readExtraLatency + 2 else 0) :=
    slotsDebt_next hr rfl
  have hoffer : (s.edge i).offerDebt + s.offers.toNat =
      s.offerDebt + (s.respConsumedThisCycle i).toNat := by
    simp only [offerDebt, offers, edge, respActiveNext, respConsumedThisCycle]
    cases s.respActive <;> cases s.arb.1 <;> cases i.s2mReady <;> rfl
  simp only [responseDebt, responseWork]
  cases hc : s.respConsumedThisCycle i <;> simp only [hc, Bool.toNat_true, Bool.toNat_false,
    Bool.false_eq_true, if_true, if_false] at hslots hoffer ⊢ <;> omega

/-- A response path without work has nothing outstanding that it has not offered. -/
theorem slot_free_of_no_work (h : s.counting = 0) (ho : s.offers = false)
    (ha : s.respActive = false) (t : p.Tag) : (s.slot t).valid = false := by
  by_contra hv
  rw [Bool.not_eq_false] at hv
  have hcount : (s.slot t).counting.toNat = 0 :=
    Finset.sum_eq_zero_iff.mp h t (Finset.mem_univ t)
  have hzero : (s.slot t).cnt = 0 := by simpa [Slot.counting, hv] using hcount
  have hfound : s.arb.1 = true := arb_found_iff.mpr ⟨t, eligible_iff.mpr ⟨hv, hzero⟩⟩
  simp [offers, ha, hfound] at ho

end State

end CxlLite.Engine
