import CxlLite.Engine.ReadData
import CxlLite.Engine.Residency
import Mathlib.Algebra.BigOperators.Intervals

/-!
# Hit and miss counters

Which address a line holds is decided by the accepted requests alone: by the
last one with its index that was accepted with bypass low. The counters
classify every accepted request by that history.
-/

namespace CxlLite.Engine

open DirectMapped Synchronous

variable {p : Params}

section Statements

variable (inp : ℕ → Inputs p)

/-- A request is accepted with bypass low in cycle `t`. -/
def allocates (t : ℕ) : Bool := accepts inp t && !(inp t).cacheBypassEn

/-- Before cycle `t`, the last request with the index of `a` that was accepted
with bypass low was a request for `a`. -/
def LastAllocated (a : p.Addr) (t : ℕ) : Prop :=
  ∃ v < t, allocates inp v = true ∧ (inp v).m2sAddr = a ∧
    ∀ w < t, v < w → allocates inp w = true → idxField (inp w).m2sAddr ≠ idxField a

instance (a : p.Addr) (t : ℕ) : Decidable (LastAllocated inp a t) :=
  inferInstanceAs (Decidable (∃ v < t, _))

/-- By the history of accepted requests, the request of cycle `t` is a hit. -/
def HitsByHistory (t : ℕ) : Prop :=
  (inp t).cacheBypassEn = false ∧ LastAllocated inp (inp t).m2sAddr t

instance (t : ℕ) : Decidable (HitsByHistory inp t) := inferInstanceAs (Decidable (_ ∧ _))

/-- How many requests of kind `k` are accepted from cycle `r` to before cycle `t`. -/
def acceptedCount (k : ℕ → Prop) [DecidablePred k] (r t : ℕ) : ℕ :=
  ((Finset.Ico r t).filter fun u => accepts inp u = true ∧ k u).card

end Statements

section History

variable {inp : ℕ → Inputs p} {t : ℕ}

theorem allocates_iff :
    allocates inp t = true ↔ accepts inp t = true ∧ (inp t).cacheBypassEn = false := by
  simp [allocates]

theorem lastAllocated_succ_of_allocates (h : allocates inp t = true) (a : p.Addr) :
    LastAllocated inp a (t + 1) ↔
      a = (inp t).m2sAddr ∨ idxField a ≠ idxField (inp t).m2sAddr ∧ LastAllocated inp a t := by
  constructor
  · rintro ⟨v, hv, hall, haddr, hno⟩
    rcases Nat.lt_succ_iff_lt_or_eq.mp hv with hlt | rfl
    · right
      refine ⟨(hno t (Nat.lt_succ_self t) hlt h).symm, v, hlt, hall, haddr, ?_⟩
      intro w hw
      exact hno w (Nat.lt_succ_of_lt hw)
    · left
      exact haddr.symm
  · rintro (rfl | ⟨hidx, v, hv, hall, haddr, hno⟩)
    · refine ⟨t, Nat.lt_succ_self t, h, rfl, ?_⟩
      intro w h₁ h₂
      omega
    · refine ⟨v, Nat.lt_succ_of_lt hv, hall, haddr, ?_⟩
      intro w hw hvw hallw
      rcases Nat.lt_succ_iff_lt_or_eq.mp hw with hlt | rfl
      · exact hno w hlt hvw hallw
      · exact Ne.symm hidx

theorem lastAllocated_succ_of_not_allocates (h : allocates inp t = false) (a : p.Addr) :
    LastAllocated inp a (t + 1) ↔ LastAllocated inp a t := by
  constructor
  · rintro ⟨v, hv, hall, haddr, hno⟩
    have hne : v ≠ t := by
      rintro rfl
      rw [h] at hall
      cases hall
    refine ⟨v, by omega, hall, haddr, ?_⟩
    intro w hw
    exact hno w (Nat.lt_succ_of_lt hw)
  · rintro ⟨v, hv, hall, haddr, hno⟩
    refine ⟨v, Nat.lt_succ_of_lt hv, hall, haddr, ?_⟩
    intro w hw hvw hallw
    rcases Nat.lt_succ_iff_lt_or_eq.mp hw with hlt | rfl
    · exact hno w hlt hvw hallw
    · rw [h] at hallw
      cases hallw

/-- The resident addresses are those that the history of accepted requests left behind. -/
theorem cacheHit_iff_lastAllocated (a : p.Addr) :
    (run inp t).cacheHit a = true ↔ LastAllocated inp a t := by
  rw [cacheHit_iff]
  induction t with
  | zero =>
      constructor
      · intro h
        simp [Resident, run_zero, powerOn] at h
      · rintro ⟨v, hv, _⟩
        exact absurd hv (Nat.not_lt_zero v)
  | succ t ih =>
      rw [run_cache_succ]
      cases hall : allocates inp t with
      | true =>
          obtain ⟨hacc, hb⟩ := allocates_iff.mp hall
          rw [resident_of_accept hacc hb, lastAllocated_succ_of_allocates hall, ih]
      | false =>
          have hno : ¬ (accepts inp t = true ∧ (inp t).cacheBypassEn = false) := by
            rw [← allocates_iff, hall]
            exact Bool.false_ne_true
          rw [resident_of_not_allocate hno, lastAllocated_succ_of_not_allocates hall, ih]

theorem cacheHitEff_iff :
    (run inp t).cacheHitEff (inp t) = true ↔ HitsByHistory inp t := by
  rw [State.cacheHitEff, Bool.and_eq_true, cacheHit_iff_lastAllocated, Bool.not_eq_true',
    HitsByHistory, and_comm]

end History

section Counts

variable {inp : ℕ → Inputs p} {r t : ℕ} {k : ℕ → Prop} [DecidablePred k]

theorem acceptedCount_self : acceptedCount inp k r r = 0 := by
  simp [acceptedCount]

theorem acceptedCount_succ (h : r ≤ t) :
    acceptedCount inp k r (t + 1) =
      acceptedCount inp k r t + if accepts inp t = true ∧ k t then 1 else 0 := by
  rw [acceptedCount, acceptedCount, Finset.card_filter, Finset.card_filter,
    Finset.sum_Ico_succ_top h]

theorem acceptedCount_add_not :
    acceptedCount inp k r t + acceptedCount inp (fun u => ¬ k u) r t =
      acceptedCount inp (fun _ => True) r t := by
  simp only [acceptedCount, and_true, ← Finset.filter_filter]
  exact Finset.card_filter_add_card_filter_not k

/-- Both counters start at zero when reset is released. -/
theorem counters_of_rose (h : UpSince (fun u => (inp u).rstN) r t) (hrt : r ≤ t) :
    (run inp r).dbgCacheHits = 0 ∧ (run inp r).dbgCacheMisses = 0 := by
  cases r with
  | zero =>
      rw [run_zero, State.settle_of_rstN _ (h.up 0 le_rfl hrt)]
      exact ⟨rfl, rfl⟩
  | succ r =>
      obtain ⟨s, hs⟩ := run_succ_eq_reset (h.rose r rfl)
      rw [hs]
      exact ⟨rfl, rfl⟩

theorem counters_eq_count (h : UpSince (fun u => (inp u).rstN) r t) (hrt : r ≤ t) :
    (run inp t).dbgCacheHits = BitVec.ofNat 32 (acceptedCount inp (HitsByHistory inp) r t) ∧
      (run inp t).dbgCacheMisses =
        BitVec.ofNat 32 (acceptedCount inp (fun u => ¬ HitsByHistory inp u) r t) := by
  induction t, hrt using Nat.le_induction with
  | base =>
      rw [acceptedCount_self, acceptedCount_self]
      exact counters_of_rose h le_rfl
  | succ t hrt ih =>
      obtain ⟨hhits, hmisses⟩ := ih (h.mono (Nat.le_succ t))
      have hedge := run_succ_of_rstN (h.up t hrt (Nat.le_succ t))
        (h.up (t + 1) (Nat.le_succ_of_le hrt) le_rfl)
      rw [hedge, acceptedCount_succ hrt, acceptedCount_succ hrt]
      simp only [State.edge, State.dbgCacheHitsNext, State.dbgCacheMissesNext, hhits, hmisses,
        ← cacheHitEff_iff, accepts]
      cases (run inp t).acceptThisCycle (inp t) <;> cases (run inp t).cacheHitEff (inp t) <;>
        simp [BitVec.ofNat_add]

/-- Since reset was last released, the counters count the accepted requests
that are hits and misses by the history of accepted requests, and together
they count all of them. -/
theorem counters_classify (h : UpSince (fun u => (inp u).rstN) r t) (hrt : r ≤ t) :
    (run inp t).dbgCacheHits = BitVec.ofNat 32 (acceptedCount inp (HitsByHistory inp) r t) ∧
      (run inp t).dbgCacheMisses =
        BitVec.ofNat 32 (acceptedCount inp (fun u => ¬ HitsByHistory inp u) r t) ∧
      (run inp t).dbgCacheHits + (run inp t).dbgCacheMisses =
        BitVec.ofNat 32 (acceptedCount inp (fun _ => True) r t) := by
  obtain ⟨hhits, hmisses⟩ := counters_eq_count h hrt
  refine ⟨hhits, hmisses, ?_⟩
  rw [hhits, hmisses, ← BitVec.ofNat_add, acceptedCount_add_not]

end Counts

theorem counters_classify_writeThenRead :
    (run (writeThenRead false) 2).dbgCacheHits =
        BitVec.ofNat 32 (acceptedCount (writeThenRead false)
          (HitsByHistory (writeThenRead false)) 0 2) ∧
      (run (writeThenRead false) 2).dbgCacheMisses =
        BitVec.ofNat 32 (acceptedCount (writeThenRead false)
          (fun u => ¬ HitsByHistory (writeThenRead false) u) 0 2) ∧
      (run (writeThenRead false) 2).dbgCacheHits + (run (writeThenRead false) 2).dbgCacheMisses =
        BitVec.ofNat 32 (acceptedCount (writeThenRead false) (fun _ => True) 0 2) := by
  apply counters_classify
  · constructor
    · intro w hw
      exact absurd hw (Nat.succ_ne_zero w)
    · intro w _ _
      rw [writeThenRead.eq_def]
      split <;> rfl
  · exact Nat.zero_le 2

end CxlLite.Engine
