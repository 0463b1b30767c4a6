import CxlLite.Engine.Latency
import Mathlib.Order.Interval.Finset.Nat

/-!
# The response channel

A response occupies the channel from the cycle after its arbitration until it is
consumed, and the arbiter looks at the slots only while the channel is free. So
consumptions are at least two cycles apart, and a host that only takes responses
gets the outstanding ones in the order of their tags, one in every other cycle.
-/

namespace CxlLite.Engine

open Synchronous

variable {p : Params}

section Edges

variable {s : State p} {i : Inputs p}

theorem edge_of_arb (ha : s.respActive = false) (hf : s.arb.1 = true) :
    (s.edge i).respActive = true ∧ (s.edge i).respTag = s.arb.2 := by
  constructor
  · simp [State.edge, State.respActiveNext, ha, hf]
  · simp [State.edge, State.respTagNext, ha, hf]

theorem edge_of_no_arb (ha : s.respActive = false) (hf : s.arb.1 = false) :
    (s.edge i).respActive = false := by
  simp [State.edge, State.respActiveNext, ha, hf]

theorem edge_of_ready (ha : s.respActive = true) (hr : i.s2mReady = true) :
    (s.edge i).respActive = false := by
  simp [State.edge, State.respActiveNext, ha, hr]

theorem consumed_of_ready (ha : s.respActive = true) (hr : i.s2mReady = true) :
    s.respConsumedThisCycle i = true := by
  rw [State.respConsumedThisCycle, ha, hr]
  rfl

end Edges

section Queue

/-- The tags in the order in which the arbiter scans them. -/
def tags (p : Params) : List p.Tag := (List.range p.numTags).map (BitVec.ofNat p.tagW)

/-- The occupied tags, the least first. -/
def State.outstanding (s : State p) : List p.Tag := (tags p).filter fun g => (s.slot g).valid

/-- No occupied slot is still counting. -/
def State.Settled (s : State p) : Prop := ∀ g, (s.slot g).valid = true → (s.slot g).cnt = 0

theorem nodup_tags : (tags p).Nodup := by
  apply List.Nodup.map_on _ List.nodup_range
  intro a ha b hb hab
  have ha' : a < 2 ^ p.tagW := List.mem_range.mp ha
  have hb' : b < 2 ^ p.tagW := List.mem_range.mp hb
  have htoNat := congrArg BitVec.toNat hab
  rwa [BitVec.toNat_ofNat, BitVec.toNat_ofNat, Nat.mod_eq_of_lt ha', Nat.mod_eq_of_lt hb'] at htoNat

variable {s : State p} {i : Inputs p} {g : p.Tag} {l : List p.Tag}

theorem State.Settled.eligible_eq (h : s.Settled) (g : p.Tag) :
    s.eligible g = (s.slot g).valid := by
  rw [State.eligible]
  cases hv : (s.slot g).valid with
  | false => rfl
  | true => rw [h g hv]; rfl

/-- The arbiter picks the head of the queue. -/
theorem State.Settled.arb_eq (h : s.Settled) :
    s.arb = match s.outstanding.head? with
      | some g => (true, g)
      | none => (false, 0) := by
  have heq : s.eligible = fun g => (s.slot g).valid := funext h.eligible_eq
  rw [State.arb, ← tags, firstMatch_eq_find?, State.outstanding, List.head?_filter, heq]
  cases (tags p).find? fun g => (s.slot g).valid <;> rfl

/-- Without acceptance and consumption a settled slot array stays as it is. -/
theorem State.Settled.slotNext_eq (h : s.Settled) (ha : s.acceptThisCycle i = false)
    (hc : s.respConsumedThisCycle i = false) : s.slotNext i = s.slot := by
  funext g
  rw [slotNext_of_other (by simp [ha]) (by simp [hc])]
  cases hv : (s.slot g).valid with
  | false => simp
  | true => simp [h g hv]

/-- A consumption frees the slot of the offered tag and leaves the others alone. -/
theorem State.Settled.slotNext_of_consume (h : s.Settled) (hr : s.OfferReady)
    (ha : s.acceptThisCycle i = false) (hc : s.respConsumedThisCycle i = true) (g : p.Tag) :
    s.slotNext i g =
      if g = s.respTag then { s.slot s.respTag with valid := false } else s.slot g := by
  split
  case isTrue heq =>
    subst heq
    exact Engine.slotNext_of_consume hr hc
  case isFalse hne =>
    rw [slotNext_of_other (by simp [ha]) (by simp [Ne.symm hne])]
    cases hv : (s.slot g).valid with
    | false => simp
    | true => simp [h g hv]

/-- Consuming the head of the queue leaves its tail. -/
theorem outstanding_of_consume (h : s.Settled) (hr : s.OfferReady)
    (ha : s.acceptThisCycle i = false) (hc : s.respConsumedThisCycle i = true)
    (hq : s.outstanding = s.respTag :: l) : (s.edge i).outstanding = l := by
  have hnodup : (s.respTag :: l).Nodup := by
    rw [← hq]
    exact nodup_tags.filter _
  have hfilter : (s.edge i).outstanding = s.outstanding.filter fun g => g ≠ s.respTag := by
    rw [State.outstanding, State.outstanding, List.filter_filter]
    apply List.filter_congr
    intro g _
    change (s.slotNext i g).valid = _
    rw [h.slotNext_of_consume hr ha hc]
    split
    case isTrue heq => simp [heq]
    case isFalse hne => simp [hne]
  rw [hfilter, hq, List.filter_cons_of_neg (by simp), List.filter_eq_self]
  intro g hg
  have hne : g ≠ s.respTag := by
    rintro rfl
    exact (List.nodup_cons.mp hnodup).1 hg
  simpa using hne

end Queue

section Runs

variable {inp : ℕ → Inputs p} {t : ℕ}

/-- Tag `g` is offered in cycle `t`. -/
def Offers (inp : ℕ → Inputs p) (g : p.Tag) (t : ℕ) : Prop :=
  (run inp t).s2mValid = true ∧ (run inp t).s2mTag = g

/-- The tag offered in cycle `t`, if any. -/
def offered (inp : ℕ → Inputs p) (t : ℕ) : Option p.Tag :=
  if (run inp t).s2mValid then some (run inp t).s2mTag else none

/-- The cycle after a consumption offers nothing. -/
theorem respActive_succ_of_consumes (h : consumes inp t = true) :
    (run inp (t + 1)).respActive = false := by
  obtain ⟨ha, hr⟩ := Bool.and_eq_true_iff.mp h
  cases h₀ : (inp t).rstN with
  | false =>
      obtain ⟨s, hs⟩ := run_succ_eq_reset h₀
      rw [hs, State.reset_respActive]
  | true =>
      cases h₁ : (inp (t + 1)).rstN with
      | false =>
          obtain ⟨s, hs⟩ := run_eq_reset h₁
          rw [hs, State.reset_respActive]
      | true =>
          rw [run_succ_of_rstN h₀ h₁]
          exact edge_of_ready ha hr

theorem not_consumes_succ (h : consumes inp t = true) : consumes inp (t + 1) = false := by
  rw [consumes, State.respConsumedThisCycle, respActive_succ_of_consumes h, Bool.false_and]

/-- At most every other cycle consumes a response, whatever the host does. -/
theorem throughput_bound (inp : ℕ → Inputs p) (a n : ℕ) :
    2 * ((Finset.Ico a (a + n)).filter fun t => consumes inp t = true).card ≤ n + 1 := by
  induction n using Nat.twoStepInduction with
  | zero => simp
  | one =>
      have hle := Finset.card_filter_le (Finset.Ico a (a + 1)) fun t => consumes inp t = true
      rw [Nat.card_Ico] at hle
      omega
  | more n ih _ =>
      have hsplit : Finset.Ico a (a + (n + 2)) =
          insert (a + n + 1) (insert (a + n) (Finset.Ico a (a + n))) := by
        ext t
        simp only [Finset.mem_insert, Finset.mem_Ico]
        omega
      have hpair : ((insert (a + n + 1) (insert (a + n) (Finset.Ico a (a + n)))).filter
          fun t => consumes inp t = true).card ≤
            ((Finset.Ico a (a + n)).filter fun t => consumes inp t = true).card + 1 := by
        rw [Finset.filter_insert, Finset.filter_insert]
        cases hc : consumes inp (a + n) with
        | false =>
            simp only [Bool.false_eq_true, if_false]
            split
            · exact Finset.card_insert_le _ _
            · omega
        | true =>
            rw [not_consumes_succ hc, if_neg Bool.false_ne_true, if_pos rfl]
            exact Finset.card_insert_le _ _
      rw [hsplit]
      omega

/-- The host takes every response, presents nothing that is accepted and leaves
reset alone from cycle `t` on. -/
structure Drains (inp : ℕ → Inputs p) (t : ℕ) : Prop where
  rstN : ∀ u, t ≤ u → (inp u).rstN = true
  ready : ∀ u, t ≤ u → (inp u).s2mReady = true
  accepts : ∀ u, t ≤ u → accepts inp u = false

/-- The channel is free, no slot counts, and `l` is what is outstanding. -/
structure Draining (inp : ℕ → Inputs p) (l : List p.Tag) (t : ℕ) : Prop where
  free : (run inp t).respActive = false
  settled : (run inp t).Settled
  queue : (run inp t).outstanding = l

variable {l : List p.Tag} {g : p.Tag}

/-- An empty queue stays empty, and nothing is offered. -/
theorem Draining.next_nil (hd : Drains inp t) (h : Draining inp [] t) :
    Draining inp [] (t + 1) := by
  have hedge := run_succ_of_rstN (hd.rstN t le_rfl) (hd.rstN (t + 1) (Nat.le_succ t))
  have hslot : (run inp (t + 1)).slot = (run inp t).slot := by
    rw [run_slot_succ]
    apply h.settled.slotNext_eq (hd.accepts t le_rfl)
    rw [State.respConsumedThisCycle, h.free, Bool.false_and]
  have hnone : (run inp t).arb.1 = false := by
    rw [h.settled.arb_eq, h.queue]
    rfl
  constructor
  · rw [hedge]
    exact edge_of_no_arb h.free hnone
  · intro g hv
    rw [hslot] at hv ⊢
    exact h.settled g hv
  · rw [State.outstanding, hslot]
    exact h.queue

/-- The head of the queue is offered next, and gone in the cycle after. -/
theorem Draining.next_cons (hd : Drains inp t) (h : Draining inp (g :: l) t) :
    Offers inp g (t + 1) ∧ Draining inp l (t + 2) := by
  have hr₀ := hd.rstN t le_rfl
  have hr₁ := hd.rstN (t + 1) (Nat.le_succ t)
  have hr₂ := hd.rstN (t + 2) (Nat.le_add_right t 2)
  have hacc := hd.accepts (t + 1) (Nat.le_succ t)
  have hslot : (run inp (t + 1)).slot = (run inp t).slot := by
    rw [run_slot_succ]
    apply h.settled.slotNext_eq (hd.accepts t le_rfl)
    rw [State.respConsumedThisCycle, h.free, Bool.false_and]
  have harb : (run inp t).arb = (true, g) := by
    rw [h.settled.arb_eq, h.queue]
    rfl
  obtain ⟨hactive, htag⟩ := edge_of_arb (i := inp t) h.free (congrArg Prod.fst harb)
  rw [← run_succ_of_rstN hr₀ hr₁] at hactive htag
  have htag : (run inp (t + 1)).respTag = g := htag.trans (congrArg Prod.snd harb)
  have hsettled : (run inp (t + 1)).Settled := by
    intro g' hv
    rw [hslot] at hv ⊢
    exact h.settled g' hv
  have hqueue : (run inp (t + 1)).outstanding = (run inp (t + 1)).respTag :: l := by
    rw [State.outstanding, hslot, htag]
    exact h.queue
  have hready := hd.ready (t + 1) (Nat.le_succ t)
  have hcons := consumed_of_ready hactive hready
  refine ⟨⟨hactive, htag⟩, ?_, ?_, ?_⟩
  · rw [run_succ_of_rstN hr₁ hr₂]
    exact edge_of_ready hactive hready
  · intro g' hv
    rw [run_slot_succ, hsettled.slotNext_of_consume (run_offerReady inp _) hacc hcons] at hv ⊢
    split at hv
    · cases hv
    · rw [if_neg ‹_›]
      exact hsettled g' hv
  · rw [run_succ_of_rstN hr₁ hr₂]
    exact outstanding_of_consume hsettled (run_offerReady inp _) hacc hcons hqueue

theorem Drains.mono (h : Drains inp t) {u : ℕ} (htu : t ≤ u) : Drains inp u where
  rstN v hv := h.rstN v (htu.trans hv)
  ready v hv := h.ready v (htu.trans hv)
  accepts v hv := h.accepts v (htu.trans hv)

/-- Two cycles take one tag off the queue. -/
theorem Draining.after (hd : Drains inp t) (h : Draining inp l t) (n : ℕ) :
    Draining inp (l.drop n) (t + 2 * n) := by
  induction n with
  | zero => exact h
  | succ n ih =>
      have hd' := hd.mono (Nat.le_add_right t (2 * n))
      cases hdrop : l.drop n with
      | nil =>
          rw [hdrop] at ih
          have hnext := (ih.next_nil hd').next_nil (hd'.mono (Nat.le_succ _))
          rw [← List.drop_drop, hdrop]
          exact hnext
      | cons g l' =>
          rw [hdrop] at ih
          rw [← List.drop_drop, hdrop]
          exact (ih.next_cons hd').2

/-- Draining follows a fixed schedule. Take a free channel, outstanding requests
that no longer count, and a host that only takes responses. Then the outstanding
tags are offered in ascending order, one in every other cycle, and nothing is
offered in between or afterwards. -/
theorem drain_schedule (hd : Drains inp t) (hfree : (run inp t).s2mValid = false)
    (hs : (run inp t).Settled) (n : ℕ) :
    offered inp (t + 2 * n) = none ∧
      offered inp (t + 2 * n + 1) = (run inp t).outstanding[n]? := by
  have hstart : Draining inp (run inp t).outstanding t := ⟨hfree, hs, rfl⟩
  have hn := hstart.after hd n
  have hd' := hd.mono (Nat.le_add_right t (2 * n))
  have hnone : ∀ {l : List p.Tag} {u : ℕ}, Draining inp l u → offered inp u = none := by
    intro l u h
    rw [offered, show (run inp u).s2mValid = false from h.free]
    rfl
  refine ⟨hnone hn, ?_⟩
  rw [← List.head?_drop]
  cases hdrop : (run inp t).outstanding.drop n with
  | nil =>
      rw [hdrop] at hn
      exact hnone (hn.next_nil hd')
  | cons g l =>
      rw [hdrop] at hn
      obtain ⟨hv, htag⟩ := (hn.next_cons hd').1
      rw [offered, hv, htag]
      rfl

end Runs

section Demonstration

set_option maxRecDepth 4000

/-- Writes with the tags 5, 2, 9 and 7 in successive cycles, taken as they come. -/
def fourWrites : ℕ → Inputs defaultParams
  | 0 => { idleInputs with m2sValid := true, m2sIsWrite := true, m2sTag := 5, s2mReady := true }
  | 1 => { idleInputs with m2sValid := true, m2sIsWrite := true, m2sTag := 2, s2mReady := true }
  | 2 => { idleInputs with m2sValid := true, m2sIsWrite := true, m2sTag := 9, s2mReady := true }
  | 3 => { idleInputs with m2sValid := true, m2sIsWrite := true, m2sTag := 7, s2mReady := true }
  | _ => { idleInputs with s2mReady := true }

theorem fourWrites_of_le {u : ℕ} (h : 5 ≤ u) : fourWrites u = { idleInputs with s2mReady := true } := by
  obtain ⟨v, rfl⟩ := Nat.exists_eq_add_of_le' h
  rfl

/-- Tag 7 overtakes tag 9. -/
theorem drain_schedule_fourWrites :
    offered fourWrites 6 = some 7 ∧ offered fourWrites 8 = some 9 ∧ offered fourWrites 10 = none := by
  have hd : Drains fourWrites 5 := by
    constructor
    · intro u hu
      rw [fourWrites_of_le hu]
      rfl
    · intro u hu
      rw [fourWrites_of_le hu]
    · intro u hu
      rw [accepts, State.acceptThisCycle, fourWrites_of_le hu]
      rfl
  have h := drain_schedule hd (by decide) (by unfold State.Settled; decide)
  have hqueue : (run fourWrites 5).outstanding = [7, 9] := by decide
  rw [hqueue] at h
  exact ⟨(h 0).2, (h 1).2, (h 2).2⟩

end Demonstration

end CxlLite.Engine
