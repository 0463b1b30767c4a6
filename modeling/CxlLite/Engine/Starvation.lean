import CxlLite.Engine.BackInvalidate
import CxlLite.Engine.Channel
import CxlLite.Engine.Memory

/-!
# Which tags the arbiter can starve

The arbiter prefers the least eligible tag. A consumed tag needs a cycle before it
is eligible again, so one tag cannot fill the channel, but two can: the two least
tags are always served, and every other tag can wait for ever.
-/

namespace CxlLite.Engine

open Synchronous

variable {p : Params}

section Statements

variable (inp : ℕ → Inputs p)

/-- A well-behaved host: one reset, stalled requests are held, and responses are
taken again and again. -/
structure FairHost : Prop where
  reset : ResetOnce inp
  holds : HoldsRequest inp
  ready : ∀ t, ∃ u, t ≤ u ∧ (inp u).s2mReady = true

/-- With a well-behaved host, every request with tag `g` is answered. -/
def StarvationFree (g : p.Tag) : Prop :=
  ∀ inp : ℕ → Inputs p, FairHost inp → ∀ t, (inp t).rstN = true →
    ((run inp t).slot g).valid = true → ∃ u, t ≤ u ∧ Offers inp g u

/-- A host that nothing holds up and that holds nothing up: one reset, no request is
stalled, and every response is taken at once. -/
structure EagerHost : Prop where
  reset : ResetOnce inp
  flows : ∀ t, ¬ Stalled inp t
  ready : ∀ t, (inp t).s2mReady = true

theorem EagerHost.fair {inp : ℕ → Inputs p} (h : EagerHost inp) : FairHost inp where
  reset := h.reset
  holds t ht := absurd ht (h.flows t)
  ready t := ⟨t, le_rfl, h.ready t⟩

/-- From cycle `t` on a request with tag `g` is outstanding, and is never offered. -/
def WaitsForever (g : p.Tag) (t : ℕ) : Prop :=
  ∀ u, t ≤ u → (inp u).rstN = true ∧ ((run inp u).slot g).valid = true ∧ ¬ Offers inp g u

theorem WaitsForever.not_starvationFree {inp : ℕ → Inputs p} {g : p.Tag} {t : ℕ}
    (h : WaitsForever inp g t) (hhost : FairHost inp) : ¬ StarvationFree g := by
  intro hfree
  obtain ⟨hrst, hvalid, _⟩ := h t le_rfl
  obtain ⟨u, hu, hoffer⟩ := hfree inp hhost t hrst hvalid
  exact (h u hu).2.2 hoffer

end Statements

section Service

variable {inp : ℕ → Inputs p} {t : ℕ} {g : p.Tag}

theorem ResetOnce.from (h : ResetOnce inp) (ht : (inp t).rstN = true) {u : ℕ} (htu : t ≤ u) :
    (inp u).rstN = true := by
  induction u, htu using Nat.le_induction with
  | base => exact ht
  | succ u _ ih => exact h u ih

/-- An offer stays until it is taken, and it is taken at some time: then its slot is
free as well. -/
theorem FairHost.consumes (h : FairHost inp) (ht : (inp t).rstN = true)
    (ha : (run inp t).respActive = true) :
    ∃ u, t ≤ u ∧ (run inp u).respTag = (run inp t).respTag ∧ consumes inp u = true := by
  obtain ⟨v, htv, hv⟩ := h.ready t
  induction hn : v - t generalizing t with
  | zero =>
      obtain rfl : t = v := by omega
      exact ⟨t, le_rfl, rfl, consumed_of_ready ha hv⟩
  | succ n ih =>
      cases hr : (inp t).s2mReady with
      | true => exact ⟨t, le_rfl, rfl, consumed_of_ready ha hr⟩
      | false =>
          have ht' := h.reset t ht
          obtain ⟨hactive, htag, _⟩ := offer_kept (run_offerReady inp t) ha hr
          rw [← run_succ_of_rstN ht ht'] at hactive htag
          obtain ⟨u, hu, htag', hc⟩ := ih ht' hactive (by omega) (by omega)
          exact ⟨u, by omega, htag'.trans htag, hc⟩

/-- The channel is free at some later time. -/
theorem FairHost.free (h : FairHost inp) (ht : (inp t).rstN = true) :
    ∃ u, t ≤ u ∧ (run inp u).respActive = false := by
  cases ha : (run inp t).respActive with
  | false => exact ⟨t, le_rfl, ha⟩
  | true =>
      obtain ⟨u, htu, _, hc⟩ := h.consumes ht ha
      exact ⟨u + 1, by omega, respActive_succ_of_consumes hc⟩

/-- In a free channel an eligible tag is overtaken by smaller ones only. -/
theorem offers_of_free (h₀ : (inp t).rstN = true) (h₁ : (inp (t + 1)).rstN = true)
    (hfree : (run inp t).respActive = false) (hg : eligible inp g t = true) :
    ∃ g' ≤ g, Offers inp g' (t + 1) ∧ eligible inp g' t = true := by
  have hfound : (run inp t).arb.1 = true := arb_found_iff.mpr ⟨g, hg⟩
  obtain ⟨hactive, htag⟩ := edge_of_arb (i := inp t) hfree hfound
  rw [← run_succ_of_rstN h₀ h₁] at hactive htag
  exact ⟨_, arb_le hg, ⟨hactive, htag⟩, eligible_of_arb hfound⟩

/-- A slot that is never offered is eligible for ever, sooner or later. -/
theorem eligible_of_not_offered (hv : ((run inp t).slot g).valid = true)
    (hno : ∀ u, t ≤ u → ¬ Offers inp g u) :
    ∃ w, t ≤ w ∧ ∀ u, w ≤ u → eligible inp g u = true := by
  obtain ⟨a, hopen⟩ := ((slot_latch inp g).held_iff_open t).mp hv
  have hconsume : ∀ u, a < u → ¬ ConsumesTag inp g u := by
    intro u hau hc
    rcases Nat.lt_or_ge u t with hut | htu
    · exact (hopen.2.2 u hau hut).2 hc
    · exact hno u htu ⟨(Bool.and_eq_true_iff.mp hc.1).1, hc.2⟩
  have hat := hopen.1
  refine ⟨t + (a + 1 + extraLatency inp a), by omega, ?_⟩
  intro u hu
  have hopen' := (slot_latch inp g).open_of_set hopen.2.1 (by omega : a < u)
    fun w h₁ _ => hconsume w h₁
  exact (eligible_iff_of_open hopen').mpr (by omega)

/-- A consumed tag is not eligible in the next cycle. -/
theorem not_eligible_succ_of_consumes (h : ConsumesTag inp g t) :
    eligible inp g (t + 1) = false := by
  have hfree : ¬ ((run inp (t + 1)).slot g).valid = true := by
    rw [(slot_latch inp g).next t]
    rintro (hset | ⟨_, hc⟩)
    · exact (slot_latch inp g).set_free t hset ((slot_latch inp g).clear_held t h)
    · exact hc h
  rw [eligible, Bool.eq_false_iff]
  intro helig
  exact hfree (eligible_iff.mp helig).1

/-- The two least tags cannot be overtaken for ever. -/
theorem starvationFree_of_le_one (hg : g.toNat ≤ 1) : StarvationFree g := by
  intro inp h t ht hv
  by_contra hnone
  push Not at hnone
  obtain ⟨w, htw, helig⟩ := eligible_of_not_offered hv hnone
  obtain ⟨u, hwu, hfree⟩ := h.free (h.reset.from ht htw)
  have hu : (inp u).rstN = true := h.reset.from ht (by omega)
  obtain ⟨g', hle, hoffer, _⟩ := offers_of_free hu (h.reset u hu) hfree (helig u hwu)
  have hne : g' ≠ g := by
    rintro rfl
    exact hnone (u + 1) (by omega) hoffer
  -- Only tag 0 can come first, and after it the other tag has its turn.
  obtain ⟨v, huv, htag, hc⟩ := h.consumes (h.reset u hu) hoffer.1
  have hc' : ConsumesTag inp g' v := ⟨hc, htag.trans hoffer.2⟩
  have hv' : (inp v).rstN = true := h.reset.from ht (by omega)
  obtain ⟨g'', hle', hoffer', helig'⟩ := offers_of_free (h.reset v hv')
    (h.reset _ (h.reset v hv')) (respActive_succ_of_consumes hc) (helig (v + 1) (by omega))
  have hne' : g'' ≠ g := by
    rintro rfl
    exact hnone (v + 1 + 1) (by omega) hoffer'
  have hne'' : g'' ≠ g' := by
    rintro rfl
    rw [not_eligible_succ_of_consumes hc'] at helig'
    cases helig'
  rw [BitVec.le_def] at hle hle'
  have h₁ := BitVec.toNat_ne_iff_ne.mpr hne
  have h₂ := BitVec.toNat_ne_iff_ne.mpr hne'
  have h₃ := BitVec.toNat_ne_iff_ne.mpr hne''
  omega

end Service

section Starving

/-- A write of 0 to address 0. -/
def writeZero (g : p.Tag) : Inputs p where
  rstN := true
  m2sValid := true
  m2sIsWrite := true
  m2sAddr := 0
  m2sTag := g
  m2sWdata := 0
  s2mReady := true
  biasWrEn := false
  biasAddr := 0
  biasWrData := false
  biReqReady := false
  biRspValid := false
  cacheBypassEn := false

/-- A cycle in which only responses are taken. -/
def takeOnly : Inputs p := { writeZero 0 with m2sValid := false }

/-- A write with tag `g` in cycle 2, and writes with the tags 0 and 1 in turn. -/
def starving (g : p.Tag) : ℕ → Inputs p
  | 0 => writeZero 0
  | 1 => writeZero 1
  | 2 => writeZero g
  | t + 3 => if t % 2 = 0 then writeZero (if t % 4 = 0 then 0 else 1) else takeOnly

/-- Writes to address 0 find nothing in their way but the slot. -/
structure Calm (s : State p) : Prop where
  biState : s.biState = .idle
  bias : s.bias = fun _ => false
  flush : s.flushState = .idle
  line : (s.cache (idxField 0)).valid = true → (s.cache (idxField 0)).tag = tagField 0

variable {s : State p} {g c d : p.Tag}

theorem Calm.not_evict (h : Calm s) {i : Inputs p} (hi : i.m2sAddr = 0) :
    s.needEvictWriteback i = false := by
  rw [Bool.eq_false_iff]
  intro hneed
  obtain ⟨_, hvalid, _, hno⟩ := needEvictWriteback_iff.mp hneed
  rw [hi] at hvalid hno
  exact hno ⟨hvalid, h.line hvalid⟩

theorem Calm.accept (h : Calm s) (hfree : (s.slot g).valid = false) :
    s.acceptThisCycle (writeZero g) = true :=
  accept_iff.mpr ⟨rfl, hfree, h.biState, congrFun h.bias _, h.flush, h.not_evict rfl⟩

theorem Calm.edge (h : Calm s) {i : Inputs p} (hi : i.m2sAddr = 0) (hb : i.biasWrEn = false) :
    Calm (s.edge i) where
  biState := by
    have hwant : s.wantBi i = false := by
      rw [State.wantBi, State.biasQueryRdData, h.bias, Bool.and_false]
    simp [State.edge, State.biStateNext, h.biState, hwant]
  bias := by
    have hflip : s.biFlipNow i = false := by rw [State.biFlipNow, h.biState]; rfl
    change s.biasNext i = _
    rw [biasNext_of_not_flip hflip, hb, h.bias]
    rfl
  flush := by
    have hwant : s.wantFlush i = false := by
      rw [State.wantFlush, h.not_evict hi, Bool.and_false]
    simp [State.edge, State.flushStateNext, h.flush, hwant]
  line := by
    change (s.cacheNext i (idxField 0)).valid = true → (s.cacheNext i (idxField 0)).tag = _
    rw [State.cacheNext, if_neg (by simp [not_flush_of_idle h.flush])]
    split
    · rw [hi, Function.update_self]
      intro _
      rw [State.acceptLine, hi]
    · exact h.line

/-- The channel is free, the slot of `c` as well, and `d` is eligible. -/
structure Contended (c d : p.Tag) (s : State p) : Prop where
  calm : Calm s
  ready : s.OfferReady
  free : s.respActive = false
  idle : (s.slot c).valid = false
  eligible : s.eligible d = true

/-- The response of `d` is offered while `c` is eligible again. -/
structure Served (c d : p.Tag) (s : State p) : Prop where
  calm : Calm s
  ready : s.OfferReady
  active : s.respActive = true
  tag : s.respTag = d
  eligible : s.eligible c = true

/-- A write is eligible in the cycle after its acceptance. -/
theorem Calm.eligible_edge (h : Calm s) (hfree : (s.slot g).valid = false) :
    (s.edge (writeZero g)).eligible g = true := by
  change ((s.slotNext (writeZero g) g).valid && (s.slotNext (writeZero g) g).cnt == 0) = true
  rw [show s.slotNext (writeZero g) g = _ from slotNext_of_accept (h.accept hfree)]
  rfl

/-- An eligible tag stays so unless it is consumed. -/
theorem eligible_edge {i : Inputs p} (hg : s.eligible g = true)
    (hc : ¬ (s.respConsumedThisCycle i = true ∧ s.respTag = g)) :
    (s.edge i).eligible g = true := by
  change ((s.slotNext i g).valid && (s.slotNext i g).cnt == 0) = true
  rw [slotNext_of_eligible hg hc]
  exact hg

theorem not_consumed_of_free {i : Inputs p} (h : s.respActive = false) :
    ¬ (s.respConsumedThisCycle i = true ∧ s.respTag = g) := by
  rintro ⟨hc, _⟩
  rw [State.respConsumedThisCycle, h, Bool.false_and] at hc
  cases hc

/-- When `c` and `d` are the two least tags, `d` is offered next, whatever waits. -/
theorem Contended.edge (h : Contended c d s) (hle : ∀ t : p.Tag, t ≤ d → t = c ∨ t = d) :
    Served c d (s.edge (writeZero c)) := by
  have hfound : s.arb.1 = true := arb_found_iff.mpr ⟨d, h.eligible⟩
  obtain ⟨hactive, htag⟩ := edge_of_arb (i := writeZero c) h.free hfound
  have harb : s.arb.2 = d := by
    rcases hle _ (arb_le h.eligible) with hc | hd
    · have helig := eligible_of_arb hfound
      rw [hc, eligible_iff, h.idle] at helig
      cases helig.1
    · exact hd
  exact ⟨h.calm.edge rfl rfl, edge_offerReady h.ready, hactive, htag.trans harb,
    h.calm.eligible_edge h.idle⟩

/-- The consumption of `d` frees it for the next round, with the roles exchanged. -/
theorem Served.edge (h : Served c d s) (hcd : c ≠ d) {i : Inputs p} (hi : i.m2sAddr = 0)
    (hb : i.biasWrEn = false) (hr : i.s2mReady = true) : Contended d c (s.edge i) where
  calm := h.calm.edge hi hb
  ready := edge_offerReady h.ready
  free := edge_of_ready h.active hr
  idle := by
    have hcons := consumed_of_ready h.active hr
    change (s.slotNext i d).valid = false
    rw [← h.tag, slotNext_of_consume h.ready hcons]
  eligible := by
    apply eligible_edge h.eligible
    rintro ⟨_, htag⟩
    exact hcd (htag.symm.trans h.tag)

/-- The slot of `g` waits. -/
theorem Contended.waits (h : Contended c d s) {i : Inputs p} (hg : s.eligible g = true) :
    (s.edge i).eligible g = true := eligible_edge hg (not_consumed_of_free h.free)

theorem Served.waits (h : Served c d s) (hgd : g ≠ d) {i : Inputs p} (hg : s.eligible g = true) :
    (s.edge i).eligible g = true := by
  apply eligible_edge hg
  rintro ⟨_, htag⟩
  exact hgd (htag.symm.trans h.tag)

section Run

theorem two_le_tagW (hg : 2 ≤ g.toNat) : 2 ≤ p.tagW := by
  by_contra hlt
  have hle : 2 ^ p.tagW ≤ 2 ^ 1 := Nat.pow_le_pow_right (by decide) (by omega)
  have := g.isLt
  omega

theorem toNat_one (hg : 2 ≤ g.toNat) : (1 : p.Tag).toNat = 1 := by
  have hle : 2 ^ 1 < 2 ^ p.tagW := Nat.pow_lt_pow_right (by decide) (two_le_tagW hg)
  change 1 % 2 ^ p.tagW = 1
  exact Nat.mod_eq_of_lt (by omega)

theorem ne_zero_one (hg : 2 ≤ g.toNat) : g ≠ 0 ∧ g ≠ 1 ∧ (0 : p.Tag) ≠ 1 := by
  have hone := toNat_one hg
  refine ⟨?_, ?_, ?_⟩
  · rintro rfl
    simp at hg
  · rintro rfl
    omega
  · intro h
    rw [← h] at hone
    simp at hone

theorem le_one_cases (hg : 2 ≤ g.toNat) (t : p.Tag) (h : t ≤ 1) : t = 0 ∨ t = 1 := by
  have hone := toNat_one hg
  rw [BitVec.le_def, hone] at h
  rcases Nat.le_one_iff_eq_zero_or_eq_one.mp h with h | h
  · exact Or.inl (BitVec.eq_of_toNat_eq h)
  · exact Or.inr (BitVec.eq_of_toNat_eq (h.trans hone.symm))

theorem starving_rstN (t : ℕ) : (starving g t).rstN = true := by
  rcases t with _ | _ | _ | t
  · rfl
  · rfl
  · rfl
  · rw [starving]
    split <;> rfl

theorem starving_ready (t : ℕ) : (starving g t).s2mReady = true := by
  rcases t with _ | _ | _ | t
  · rfl
  · rfl
  · rfl
  · rw [starving]
    split <;> rfl

theorem run_starving_succ (t : ℕ) :
    run (starving g) (t + 1) = (run (starving g) t).edge (starving g t) :=
  run_succ_of_rstN (starving_rstN t) (starving_rstN (t + 1))

theorem starving_even (k : ℕ) :
    starving g (2 * k + 3) = writeZero (if k % 2 = 0 then 0 else 1) := by
  have hmod : 2 * k % 4 = 0 ↔ k % 2 = 0 := by omega
  rw [starving, if_pos (by omega)]
  simp only [hmod]

theorem starving_odd (k : ℕ) : starving g (2 * k + 4) = takeOnly := by
  rw [show 2 * k + 4 = 2 * k + 1 + 3 from rfl, starving, if_neg (by omega)]

/-- A free slot stays free when another tag is accepted. -/
theorem free_edge {i : Inputs p} (hr : s.OfferReady) (hg : (s.slot g).valid = false)
    (hi : i.m2sTag ≠ g) : ((s.edge i).slot g).valid = false := by
  rw [Bool.eq_false_iff]
  intro hv
  rcases (slotNext_valid_iff hr g).mp hv with ⟨_, htag⟩ | ⟨hv', _⟩
  · exact hi htag
  · rw [hg] at hv'
    cases hv'

theorem calm_powerOn : Calm (powerOn p) where
  biState := rfl
  bias := rfl
  flush := rfl
  line h := by cases h

/-- Cycle 1: tag 0 has been accepted. -/
theorem starving_one (hg : 2 ≤ g.toNat) :
    Contended 1 0 (run (starving g) 1) ∧ ((run (starving g) 1).slot g).valid = false := by
  obtain ⟨h0, _, h01⟩ := ne_zero_one hg
  have hready : (powerOn p).OfferReady := fun h => by cases h
  have hnone : (powerOn p).arb.1 = false := by
    rw [Bool.eq_false_iff]
    intro hf
    obtain ⟨t, ht⟩ := arb_found_iff.mp hf
    cases (eligible_iff.mp ht).1
  rw [show run (starving g) 1 = (powerOn p).edge (writeZero 0) from run_starving_succ 0]
  refine ⟨⟨calm_powerOn.edge rfl rfl, edge_offerReady hready, edge_of_no_arb rfl hnone, ?_,
    calm_powerOn.eligible_edge rfl⟩, ?_⟩
  · exact free_edge hready rfl h01
  · exact free_edge hready rfl h0.symm

/-- Cycle 2: tag 0 is offered, and tag `g` is free. -/
theorem starving_two (hg : 2 ≤ g.toNat) :
    Served 1 0 (run (starving g) 2) ∧ ((run (starving g) 2).slot g).valid = false := by
  obtain ⟨_, h1, _⟩ := ne_zero_one hg
  obtain ⟨hone, hfree⟩ := starving_one hg
  rw [show run (starving g) 2 = _ from run_starving_succ 1]
  refine ⟨hone.edge ?_, free_edge hone.ready hfree h1.symm⟩
  intro t ht
  right
  apply BitVec.eq_of_toNat_eq
  simpa [BitVec.le_def] using ht

/-- Cycle 3: tag `g` waits, tag 0 is free and tag 1 comes next. -/
theorem starving_three (hg : 2 ≤ g.toNat) :
    Contended 0 1 (run (starving g) 3) ∧ (run (starving g) 3).eligible g = true := by
  obtain ⟨_, _, h01⟩ := ne_zero_one hg
  obtain ⟨htwo, hfree⟩ := starving_two hg
  rw [show run (starving g) 3 = _ from run_starving_succ 2]
  exact ⟨htwo.edge h01.symm rfl rfl rfl, htwo.calm.eligible_edge hfree⟩

/-- From cycle 3 on the tags 0 and 1 take turns and tag `g` waits. -/
theorem starving_turns (hg : 2 ≤ g.toNat) (k : ℕ) :
    (Contended (if k % 2 = 0 then 0 else 1) (if k % 2 = 0 then 1 else 0)
        (run (starving g) (2 * k + 3)) ∧ (run (starving g) (2 * k + 3)).eligible g = true) ∧
      Served (if k % 2 = 0 then 0 else 1) (if k % 2 = 0 then 1 else 0)
        (run (starving g) (2 * k + 4)) ∧ (run (starving g) (2 * k + 4)).eligible g = true := by
  obtain ⟨h0, h1, h01⟩ := ne_zero_one hg
  -- An offering cycle follows every contended one.
  have hoffer : ∀ k, Contended (if k % 2 = 0 then 0 else 1) (if k % 2 = 0 then 1 else 0)
      (run (starving g) (2 * k + 3)) → (run (starving g) (2 * k + 3)).eligible g = true →
      Served (if k % 2 = 0 then 0 else 1) (if k % 2 = 0 then 1 else 0)
        (run (starving g) (2 * k + 4)) ∧ (run (starving g) (2 * k + 4)).eligible g = true := by
    intro k hk helig
    rw [show run (starving g) (2 * k + 4) = _ from run_starving_succ (2 * k + 3), starving_even]
    refine ⟨hk.edge ?_, hk.waits helig⟩
    intro t ht
    split at ht
    · simpa [*] using le_one_cases hg t ht
    · right
      rw [if_neg ‹_›]
      apply BitVec.eq_of_toNat_eq
      simpa [BitVec.le_def] using ht
  induction k with
  | zero => exact ⟨starving_three hg, hoffer 0 (starving_three hg).1 (starving_three hg).2⟩
  | succ k ih =>
      obtain ⟨_, hserved, helig⟩ := ih
      have hnext : Contended (if (k + 1) % 2 = 0 then 0 else 1) (if (k + 1) % 2 = 0 then 1 else 0)
          (run (starving g) (2 * (k + 1) + 3)) ∧
            (run (starving g) (2 * (k + 1) + 3)).eligible g = true := by
        rw [show run (starving g) (2 * (k + 1) + 3) = _ from run_starving_succ (2 * k + 4),
          starving_odd]
        rcases Nat.mod_two_eq_zero_or_one k with hk | hk
        · have hk' : ¬ (k + 1) % 2 = 0 := by omega
          simp only [hk, hk', if_true, if_false] at hserved ⊢
          exact ⟨hserved.edge h01 rfl rfl rfl, hserved.waits h1 helig⟩
        · have hk' : (k + 1) % 2 = 0 := by omega
          have hk : ¬ k % 2 = 0 := by omega
          simp only [hk, hk', if_true, if_false] at hserved ⊢
          exact ⟨hserved.edge h01.symm rfl rfl rfl, hserved.waits h0 helig⟩
      exact ⟨hnext, hoffer (k + 1) hnext.1 hnext.2⟩

/-- Tag `g` is never offered. -/
theorem not_offers_starving (hg : 2 ≤ g.toNat) {u : ℕ} (hu : 3 ≤ u) :
    ¬ Offers (starving g) g u := by
  obtain ⟨h0, h1, _⟩ := ne_zero_one hg
  obtain ⟨n, rfl⟩ := Nat.exists_eq_add_of_le' hu
  rintro ⟨hv, htag⟩
  obtain ⟨k, rfl | rfl⟩ : ∃ k, n = 2 * k ∨ n = 2 * k + 1 := ⟨n / 2, by omega⟩
  · rw [show (run (starving g) (2 * k + 3)).s2mValid = false from
      (starving_turns hg k).1.1.free] at hv
    cases hv
  · have hd := (starving_turns hg k).2.1.tag
    rw [show (run (starving g) (2 * k + 4)).respTag = g from htag] at hd
    split at hd
    · exact h1 hd
    · exact h0 hd

/-- No request of the run is ever stalled. -/
theorem not_stalled_starving (hg : 2 ≤ g.toNat) (t : ℕ) : ¬ Stalled (starving g) t := by
  have hready : ∀ {s : State p} {c : p.Tag}, Calm s → (s.slot c).valid = false →
      s.m2sReady (writeZero c) = true := by
    intro s c hs hfree
    exact (Bool.and_eq_true_iff.mp (hs.accept hfree)).2
  rintro ⟨hv, hstall⟩
  obtain ⟨hone, _⟩ := starving_one hg
  obtain ⟨htwo, hfree⟩ := starving_two hg
  rcases t with _ | _ | _ | n
  · rw [show run (starving g) 0 = powerOn p from rfl] at hstall
    rw [show starving g 0 = writeZero 0 from rfl, hready calm_powerOn rfl] at hstall
    cases hstall
  · rw [show starving g (0 + 1) = writeZero 1 from rfl, hready hone.calm hone.idle] at hstall
    cases hstall
  · rw [show starving g (0 + 1 + 1) = writeZero g from rfl, hready htwo.calm hfree] at hstall
    cases hstall
  · obtain ⟨k, rfl | rfl⟩ : ∃ k, n = 2 * k ∨ n = 2 * k + 1 := ⟨n / 2, by omega⟩
    · have hk := (starving_turns hg k).1.1
      rw [starving_even, hready hk.calm hk.idle] at hstall
      cases hstall
    · rw [show 2 * k + 1 + 3 = 2 * k + 4 from rfl, starving_odd] at hv
      cases hv

theorem eagerHost_starving (hg : 2 ≤ g.toNat) : EagerHost (starving g) where
  reset t _ := starving_rstN (t + 1)
  flows := not_stalled_starving hg
  ready := starving_ready

theorem waitsForever_starving (hg : 2 ≤ g.toNat) : WaitsForever (starving g) g 3 := by
  intro u hu
  refine ⟨starving_rstN u, ?_, not_offers_starving hg hu⟩
  obtain ⟨n, rfl⟩ := Nat.exists_eq_add_of_le' hu
  obtain ⟨k, rfl | rfl⟩ : ∃ k, n = 2 * k ∨ n = 2 * k + 1 := ⟨n / 2, by omega⟩
  · exact (eligible_iff.mp (starving_turns hg k).1.2).1
  · exact (eligible_iff.mp (starving_turns hg k).2.2).1

end Run

/-- The tags 0 and 1 are always served, and exactly the other tags can wait for ever
although no request is ever stalled and the host takes every response at once: under
fixed priority two busy tags starve every tag above them. -/
theorem starvation_free_iff (g : p.Tag) :
    (StarvationFree g ↔ g.toNat ≤ 1) ∧
      ((∃ inp t, EagerHost inp ∧ WaitsForever inp g t) ↔ 1 < g.toNat) := by
  have hstarves : 1 < g.toNat → EagerHost (starving g) ∧ WaitsForever (starving g) g 3 :=
    fun hg => ⟨eagerHost_starving hg, waitsForever_starving hg⟩
  constructor
  · refine ⟨fun h => ?_, starvationFree_of_le_one⟩
    by_contra hlt
    obtain ⟨heager, hwaits⟩ := hstarves (by omega)
    exact hwaits.not_starvationFree heager.fair h
  · refine ⟨?_, fun hg => ⟨starving g, 3, hstarves hg⟩⟩
    rintro ⟨inp, t, heager, hwaits⟩
    by_contra hle
    exact hwaits.not_starvationFree heager.fair (starvationFree_of_le_one (by omega))

end Starving

end CxlLite.Engine
