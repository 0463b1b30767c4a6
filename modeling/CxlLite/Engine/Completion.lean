import CxlLite.Engine.Slots

/-!
# Exactly-once tagged completion

Every cycle keeps the balance between requests accepted, responses consumed
and slots occupied. Together with the per-tag latch this rules out phantom,
duplicate, lost and cross-routed responses.
-/

namespace CxlLite.Engine

open Synchronous

variable {p : Params}

/-- What a request is answered with: its tag and, for a read, the data. -/
abbrev Completion (p : Params) := p.Tag × Option p.Data

def completion (t : p.Tag) (isWrite : Bool) (d : p.Data) : Completion p :=
  (t, if isWrite then none else some d)

/-- The completion held by a slot of tag `t`, if the slot is occupied. -/
def Slot.bag (σ : Slot p) (t : p.Tag) : Multiset (Completion p) :=
  if σ.valid then {completion t σ.isWrite σ.rdata} else 0

theorem Slot.bag_of_free {σ : Slot p} (h : σ.valid = false) (t : p.Tag) : σ.bag t = 0 := by
  simp [bag, h]

theorem Slot.bag_cleared (σ : Slot p) (t : p.Tag) :
    Slot.bag { σ with valid := false } t = 0 := rfl

theorem Slot.bag_congr {σ τ : Slot p}
    (h : σ.valid = τ.valid ∧ σ.isWrite = τ.isWrite ∧ σ.rdata = τ.rdata) (t : p.Tag) :
    σ.bag t = τ.bag t := by
  simp only [bag, h.1, h.2.1, h.2.2]

namespace State

variable (s : State p) (i : Inputs p)

/-- The completions held by all occupied slots. -/
def occupied : Multiset (Completion p) := ∑ t, (s.slot t).bag t

/-- The completion owed for the request accepted in this cycle. -/
def owed : Multiset (Completion p) :=
  if s.acceptThisCycle i then {completion i.m2sTag i.m2sIsWrite (s.readCapture i)} else 0

/-- The completion consumed from the response outputs in this cycle. -/
def delivered : Multiset (Completion p) :=
  if s.respConsumedThisCycle i then {(s.s2mTag, if s.s2mIsData then some s.s2mRdata else none)}
  else 0

theorem acceptSlot_bag (σ : Slot p) (t : p.Tag) :
    (s.acceptSlot i σ).bag t = {completion t i.m2sIsWrite (s.readCapture i)} := by
  cases h : i.m2sIsWrite <;> simp [acceptSlot, Slot.bag, completion, h]

variable {s i}

theorem delivered_eq_bag (hr : s.OfferReady) :
    s.delivered i = if s.respConsumedThisCycle i then (s.slot s.respTag).bag s.respTag else 0 := by
  rw [delivered]
  split
  case isTrue hc =>
    have hv := (hr.consumed hc).1
    cases hw : (s.slot s.respTag).isWrite <;>
      simp [Slot.bag, hv, completion, s2mTag, s2mIsData, s2mRdata, hw]
  case isFalse => rfl

/-- The balance of one slot over one cycle. -/
theorem bag_next (hr : s.OfferReady) (t : p.Tag) :
    (s.slot t).bag t + (if i.m2sTag = t then s.owed i else 0) =
      (if s.respTag = t then s.delivered i else 0) + (s.slotNext i t).bag t := by
  rw [delivered_eq_bag hr]
  by_cases ha : s.acceptThisCycle i = true ∧ i.m2sTag = t
  · obtain ⟨ha, rfl⟩ := ha
    have hfree := slot_free_of_accept ha
    have hnone : (if s.respTag = i.m2sTag then
        (if s.respConsumedThisCycle i then (s.slot s.respTag).bag s.respTag else 0) else 0) = 0 := by
      split
      case isTrue ht => rw [ht, Slot.bag_of_free hfree]; split <;> rfl
      case isFalse => rfl
    rw [hnone, slotNext_of_accept ha, acceptSlot_bag, Slot.bag_of_free hfree]
    simp [owed, ha]
  have hzero : (if i.m2sTag = t then s.owed i else 0) = 0 := by
    split
    case isTrue ht => exact if_neg fun h => ha ⟨h, ht⟩
    case isFalse => rfl
  rw [hzero, add_zero]
  by_cases hc : s.respConsumedThisCycle i = true ∧ s.respTag = t
  · obtain ⟨hc, rfl⟩ := hc
    rw [slotNext_of_consume hr hc, if_pos rfl, if_pos hc, Slot.bag_cleared, add_zero]
  · have hnone : (if s.respTag = t then
        (if s.respConsumedThisCycle i then (s.slot s.respTag).bag s.respTag else 0) else 0) = 0 := by
      split
      case isTrue ht => exact if_neg fun h => hc ⟨h, ht⟩
      case isFalse => rfl
    rw [hnone, zero_add, Slot.bag_congr (slotNext_data_of_other ha hc)]

/-- The balance of all slots over one cycle. -/
theorem occupied_next {s' : State p} (hs' : s'.slot = s.slotNext i) (hr : s.OfferReady) :
    s.occupied + s.owed i = s.delivered i + s'.occupied := by
  have hocc : s'.occupied = ∑ t, (s.slotNext i t).bag t := by rw [occupied, hs']
  have howed : ∑ t, (if i.m2sTag = t then s.owed i else 0) = s.owed i := by simp
  have hdel : ∑ t, (if s.respTag = t then s.delivered i else 0) = s.delivered i := by simp
  calc
    s.occupied + s.owed i
        = ∑ t, ((s.slot t).bag t + if i.m2sTag = t then s.owed i else 0) := by
          rw [Finset.sum_add_distrib, howed, occupied]
    _ = ∑ t, ((if s.respTag = t then s.delivered i else 0) + (s.slotNext i t).bag t) :=
          Finset.sum_congr rfl fun t _ => bag_next hr t
    _ = s.delivered i + s'.occupied := by
          rw [Finset.sum_add_distrib, hdel, hocc]

end State

section Balance

variable (inp : ℕ → Inputs p)

/-- The balance over any stretch of cycles. -/
theorem occupied_balance {a b : ℕ} (hab : a ≤ b) :
    (run inp a).occupied + ∑ u ∈ Finset.Ico a b, (run inp u).owed (inp u) =
      ∑ u ∈ Finset.Ico a b, (run inp u).delivered (inp u) + (run inp b).occupied := by
  induction b, hab using Nat.le_induction with
  | base => simp
  | succ b hab ih =>
      have hstep := State.occupied_next (run_slot_succ inp b) (run_offerReady inp b)
      calc
        (run inp a).occupied + ∑ u ∈ Finset.Ico a (b + 1), (run inp u).owed (inp u)
            = (run inp a).occupied + ∑ u ∈ Finset.Ico a b, (run inp u).owed (inp u) +
                (run inp b).owed (inp b) := by
              rw [Finset.sum_Ico_succ_top hab, add_assoc]
        _ = ∑ u ∈ Finset.Ico a b, (run inp u).delivered (inp u) +
              ((run inp b).occupied + (run inp b).owed (inp b)) := by
              rw [ih, add_assoc]
        _ = ∑ u ∈ Finset.Ico a b, (run inp u).delivered (inp u) +
              ((run inp b).delivered (inp b) + (run inp (b + 1)).occupied) := by
              rw [hstep]
        _ = ∑ u ∈ Finset.Ico a (b + 1), (run inp u).delivered (inp u) +
              (run inp (b + 1)).occupied := by
              rw [Finset.sum_Ico_succ_top hab, add_assoc]

theorem occupied_zero : (run inp 0).occupied = 0 := by
  simp [State.occupied, Slot.bag, run_zero, powerOn]

/-- For each tag, acceptances and consumed responses strictly alternate,
starting with an acceptance. A consumed response answers exactly one open
request of its tag, with the type of that request and, for a read, the data
captured when it was accepted. The accepted requests are the consumed
responses together with the occupied slots. -/
theorem exactly_once_completion :
    (∀ g, Alternate (AcceptsTag inp g) (ConsumesTag inp g)) ∧
      (∀ v, consumes inp v = true →
        ∃! u, Open (AcceptsTag inp (run inp v).s2mTag) (ConsumesTag inp (run inp v).s2mTag) u v ∧
          (run inp v).s2mIsData = !(inp u).m2sIsWrite ∧
          ((inp u).m2sIsWrite = false →
            (run inp v).s2mRdata = (run inp u).readCapture (inp u))) ∧
      ∀ t, ∑ u ∈ Finset.range t, (run inp u).owed (inp u) =
        ∑ u ∈ Finset.range t, (run inp u).delivered (inp u) + (run inp t).occupied := by
  refine ⟨?_, ?_, ?_⟩
  · intro g
    exact (slot_latch inp g).alternate
  · intro v hv
    obtain ⟨u, hu⟩ := (slot_latch inp _).clear_answers (v := v) ⟨hv, rfl⟩
    refine ⟨u, ⟨hu, offered_payload inp hu⟩, ?_⟩
    intro u' hu'
    exact hu'.1.unique hu
  · intro t
    have h := occupied_balance inp (Nat.zero_le t)
    rw [occupied_zero, zero_add, Nat.Ico_zero_eq_range] at h
    exact h

end Balance

end CxlLite.Engine
