import CxlLite.Engine.Progress

/-!
# Latency and arbitration

The slot of an accepted request counts down by one in every cycle, and becomes
eligible when the count is used up. It is never disturbed before its response
is consumed. The least eligible tag is offered next.
-/

namespace CxlLite.Engine

open Synchronous

variable {p : Params}

/-- `CNT_W` bits hold `READ_EXTRA_LATENCY`. -/
theorem readExtraLatency_lt (p : Params) : p.readExtraLatency < 2 ^ p.cntW := by
  rw [Params.cntW]
  split
  · omega
  · calc
      p.readExtraLatency < p.readExtraLatency + 1 := Nat.lt_succ_self _
      _ ≤ 2 ^ Nat.clog 2 (p.readExtraLatency + 1) := Nat.le_pow_clog Nat.one_lt_two _

section Arbitration

variable {s : State p}

theorem tags_pairwise : ((List.range p.numTags).map (BitVec.ofNat p.tagW)).Pairwise (· ≤ ·) := by
  rw [List.pairwise_map]
  apply List.Pairwise.imp_of_mem _ List.pairwise_lt_range
  intro a b ha hb hab
  have ha' : a < 2 ^ p.tagW := List.mem_range.mp ha
  have hb' : b < 2 ^ p.tagW := List.mem_range.mp hb
  rw [BitVec.le_def, BitVec.toNat_ofNat, BitVec.toNat_ofNat, Nat.mod_eq_of_lt ha',
    Nat.mod_eq_of_lt hb']
  exact hab.le

/-- The arbiter finds the least eligible tag. -/
theorem arb_le {g : p.Tag} (h : s.eligible g = true) : s.arb.2 ≤ g :=
  firstMatch_least BitVec.le_refl tags_pairwise (mem_tags g) h

end Arbitration

section Statements

variable (inp : ℕ → Inputs p)

/-- The extra cycles that the request accepted in cycle `u` waits for. -/
def extraLatency (u : ℕ) : ℕ :=
  if (inp u).m2sIsWrite || (run inp u).cacheHitEff (inp u) then 0 else p.readExtraLatency

/-- The slot of tag `g` is eligible in cycle `t`. -/
def eligible (g : p.Tag) (t : ℕ) : Bool := (run inp t).eligible g

end Statements

section Countdown

variable {inp : ℕ → Inputs p} {g : p.Tag} {u t : ℕ}

theorem acceptSlot_cnt (u : ℕ) (σ : Slot p) :
    ((run inp u).acceptSlot (inp u) σ).cnt.toNat = extraLatency inp u := by
  rw [extraLatency]
  simp only [State.acceptSlot]
  split
  · rfl
  · rw [BitVec.toNat_ofNat, Nat.mod_eq_of_lt (readExtraLatency_lt p)]

/-- The count of an unanswered request is what is left of its extra latency. -/
theorem cnt_of_open (h : Open (AcceptsTag inp g) (ConsumesTag inp g) u t) :
    ((run inp t).slot g).cnt.toNat = extraLatency inp u - (t - (u + 1)) := by
  induction t with
  | zero => exact absurd h.1 (Nat.not_lt_zero u)
  | succ t ih =>
      rw [run_slot_succ]
      rcases open_succ_iff.mp h with ⟨rfl, ha, rfl⟩ | ⟨hopen, ha, hc⟩
      · rw [slotNext_of_accept ha, acceptSlot_cnt]
        simp
      · have hut := hopen.1
        have hcnt := ih hopen
        have hvalid := (slot_of_open inp hopen).1
        rw [slotNext_of_other ha hc, hvalid, Bool.true_and]
        split
        case isTrue hne =>
          have hpred := State.cnt_pred_toNat (bne_iff_ne.mp hne)
          change BitVec.toNat (((run inp t).slot g).cnt - 1) = _
          omega
        case isFalse hz =>
          have hzero : ((run inp t).slot g).cnt = 0 := by simpa using hz
          rw [hzero] at hcnt ⊢
          have : (0 : p.Cnt).toNat = 0 := rfl
          omega

/-- An unanswered request is eligible once its extra latency has passed. -/
theorem eligible_iff_of_open (h : Open (AcceptsTag inp g) (ConsumesTag inp g) u t) :
    eligible inp g t = true ↔ u + 1 + extraLatency inp u ≤ t := by
  have hut := h.1
  have hcnt := cnt_of_open h
  rw [eligible, eligible_iff]
  constructor
  · rintro ⟨_, hz⟩
    rw [hz] at hcnt
    have hzero : (0 : p.Cnt).toNat = 0 := rfl
    omega
  · intro ht
    refine ⟨(slot_of_open inp h).1, BitVec.eq_of_toNat_eq ?_⟩
    rw [hcnt]
    change _ = 0
    omega

/-- Only an eligible slot is consumed. -/
theorem eligible_of_consumes (h : ConsumesTag inp g t) : eligible inp g t = true := by
  obtain ⟨hc, rfl⟩ := h
  exact eligible_iff.mpr ((run_offerReady inp t).consumed hc)

/-- A request is not answered before its extra latency has passed. -/
theorem open_of_accepts (h : AcceptsTag inp g u) {n : ℕ} (hn : n ≤ extraLatency inp u) :
    Open (AcceptsTag inp g) (ConsumesTag inp g) u (u + 1 + n) := by
  induction n with
  | zero =>
      refine ⟨Nat.lt_succ_self u, h, ?_⟩
      intro w h₁ h₂
      omega
  | succ n ih =>
      have hopen := ih (Nat.le_of_succ_le hn)
      refine open_succ_iff.mpr (Or.inr ⟨hopen, ?_, ?_⟩)
      · intro ha
        exact (slot_latch inp g).set_free _ ha (slot_of_open inp hopen).1
      · intro hc
        have hle := (eligible_iff_of_open hopen).mp (eligible_of_consumes hc)
        omega

/-- A response is offered only in a cycle after one in which its slot was eligible. -/
theorem eligible_before_offer (h : (run inp t).s2mValid = true) :
    ∃ w, w + 1 = t ∧ eligible inp (run inp t).s2mTag w = true := by
  cases t with
  | zero =>
      rw [run_zero, State.settle] at h
      split at h <;> cases h
  | succ t =>
      have hreset : ∀ s : State p, ¬ s.reset.s2mValid = true := fun _ hs => by cases hs
      have hrst := rstN_of_not_reset_succ (P := fun s => s.s2mValid = true) hreset h
      have hrst' := rstN_of_not_reset (P := fun s => s.s2mValid = true) hreset h
      refine ⟨t, rfl, ?_⟩
      rw [run_succ_of_rstN hrst hrst'] at h ⊢
      simp only [State.s2mValid, State.edge, State.respActiveNext] at h
      simp only [State.s2mTag, State.edge, State.respTagNext, eligible]
      cases hactive : (run inp t).respActive with
      | false =>
          have hfound : (run inp t).arb.1 = true := by simpa [hactive] using h
          simpa [hfound] using eligible_of_arb hfound
      | true => simpa using run_offerReady inp t hactive

end Countdown

section Law

variable (inp : ℕ → Inputs p)

/-- What the slot of tag `g` does after the acceptance in cycle `u`: it counts
down by one in every cycle, becomes eligible exactly when its extra latency has
passed, and stays so until its response is consumed. -/
structure CountsDown (g : p.Tag) (u : ℕ) : Prop where
  count : ∀ n ≤ extraLatency inp u,
    ((run inp (u + 1 + n)).slot g).valid = true ∧
      ((run inp (u + 1 + n)).slot g).cnt.toNat = extraLatency inp u - n
  waits : ∀ w, u < w → w < u + 1 + extraLatency inp u → eligible inp g w = false
  ready : eligible inp g (u + 1 + extraLatency inp u) = true
  stays : ∀ w, u + 1 + extraLatency inp u ≤ w →
    (∀ v, u < v → v < w → ¬ ConsumesTag inp g v) → eligible inp g w = true

variable {inp}

theorem countsDown_of_accepts {g : p.Tag} {u : ℕ} (h : AcceptsTag inp g u) :
    CountsDown inp g u where
  count n hn := by
    have hopen := open_of_accepts h hn
    refine ⟨(slot_of_open inp hopen).1, ?_⟩
    rw [cnt_of_open hopen]
    omega
  waits w h₁ h₂ := by
    obtain ⟨n, rfl⟩ := Nat.exists_eq_add_of_le (Nat.succ_le_of_lt h₁)
    have hopen := open_of_accepts (n := n) h (by omega)
    rw [Bool.eq_false_iff]
    intro helig
    have hle := (eligible_iff_of_open hopen).mp helig
    omega
  ready := (eligible_iff_of_open (open_of_accepts h le_rfl)).mpr le_rfl
  stays w hw hno := by
    have hopen := (slot_latch inp g).open_of_set h (by omega : u < w) hno
    exact (eligible_iff_of_open hopen).mpr hw

/-- Latency and arbitration under arbitrary traffic: every accepted request
counts down its extra latency exactly, no response is offered before the cycle
after its slot became eligible, and a free response channel offers the least
eligible tag next. -/
theorem latency_and_arbitration (inp : ℕ → Inputs p) :
    (∀ g u, AcceptsTag inp g u → CountsDown inp g u) ∧
      (∀ t u, (run inp t).s2mValid = true →
        Open (AcceptsTag inp (run inp t).s2mTag) (ConsumesTag inp (run inp t).s2mTag) u t →
          u + 1 + extraLatency inp u < t) ∧
      ∀ t, (inp t).rstN = true → (inp (t + 1)).rstN = true → (run inp t).s2mValid = false →
        (∃ g, eligible inp g t = true) →
          (run inp (t + 1)).s2mValid = true ∧
            eligible inp (run inp (t + 1)).s2mTag t = true ∧
            ∀ g, eligible inp g t = true → (run inp (t + 1)).s2mTag ≤ g := by
  refine ⟨?_, ?_, ?_⟩
  · intro g u h
    exact countsDown_of_accepts h
  · intro t u hv hopen
    obtain ⟨w, rfl, helig⟩ := eligible_before_offer hv
    rcases open_succ_iff.mp hopen with ⟨rfl, ha⟩ | ⟨hopen', _, _⟩
    · have hvalid := (eligible_iff.mp helig).1
      exact absurd hvalid ((slot_latch inp _).set_free u ha)
    · exact Nat.lt_succ_of_le ((eligible_iff_of_open hopen').mp helig)
  · rintro t h₀ h₁ hfree helig
    have hfound : (run inp t).arb.1 = true := arb_found_iff.mpr helig
    have hactive : (run inp t).respActive = false := hfree
    rw [run_succ_of_rstN h₀ h₁]
    have htag : ((run inp t).edge (inp t)).s2mTag = (run inp t).arb.2 := by
      simp [State.s2mTag, State.edge, State.respTagNext, hactive, hfound]
    rw [htag]
    refine ⟨?_, eligible_of_arb hfound, ?_⟩
    · simp [State.s2mValid, State.edge, State.respActiveNext, hactive, hfound]
    · intro g hg
      exact arb_le hg

end Law

end CxlLite.Engine
