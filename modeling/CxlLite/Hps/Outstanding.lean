import CxlLite.Hps.Routines

/-!
# Many requests in flight

Requests with distinct tags are fired without waiting for their responses. One
that displaces no unwritten data is accepted in the cycle after its `REQ_FIRE`,
so that the next one finds the pending register free. A ledger records the
accepted requests that have not been answered.
-/

namespace CxlLite.Hps

open Engine Shim

variable {q : ShimParams}

/-- Type and read data of the unanswered requests, by tag. -/
abbrev Ledger (q : ShimParams) := q.engine.Tag → Option (Bool × q.engine.Data)

/-- The request, accepted at the model `m`, is entered. -/
def Ledger.enter (f : Ledger q) (m : Model q.engine) (r : Request) : Ledger q :=
  Function.update f (r.tagBits q) (some (r.isWrite, m.answer (r.addrBits q)))

/-- The slot holds a request of the ledger. -/
structure HoldsEntry (σ : Slot q.engine) (e : Bool × q.engine.Data) : Prop where
  isWrite : σ.isWrite = e.1
  rdata : e.1 = false → σ.rdata = e.2
  count : σ.cnt.toNat ≤ q.engine.readExtraLatency

/-- The engine stands for `m` and owes exactly the responses of the ledger. -/
structure Carrying (m : Model q.engine) (f : Ledger q) (s : Shim.State q) : Prop where
  handshake : s.engine.biState = .idle
  eviction : s.engine.flushState = .idle
  offer : s.engine.OfferReady
  model : Model.ofShim s = m
  slots : ∀ g, (s.engine.slot g).valid = (f g).isSome
  holds : ∀ g e, f g = some e → HoldsEntry (s.engine.slot g) e

/-- A released cycle without fire, acknowledge, and change of bias or bypass. -/
structure Quiet (b : Bus) : Prop extends Passive b where
  ack : b.writeAck = false

/-- The engine owes the responses of the ledger, at once or after the next cycle,
in which it accepts the queued request. -/
inductive Afloat (m : Model q.engine) (f : Ledger q) : Shim.State q → Prop
  | settled {s : Shim.State q} (h : Carrying m f s) (hp : s.pendingValid = false) : Afloat m f s
  | queued {m₀ : Model q.engine} {f₀ : Ledger q} {r : Request} {s : Shim.State q} 
      (h : Carrying m₀ f₀ s) (hq : Queued r s) (hfree : f₀ (r.tagBits q) = none)
      (hbias : m₀.bias (r.addrBits q) = false) (hn : ¬ m₀.Evicts (r.addrBits q))
      (hm : m₀.access (r.access q) = m) (hf : f₀.enter m₀ r = f) : Afloat m f s

section Cycles

variable {m : Model q.engine} {f : Ledger q} {r : Request} {s : Shim.State q} {b : Bus}

theorem unbiased_of_carrying (h : Carrying m f s) (hb : Passive b) : Model.Unbiased s b :=
  ⟨hb.rstn, hb.bias, hb.bypass, by simp [Engine.State.biFlipNow, h.handshake]⟩

/-- The countdown keeps an entry in its slot. -/
theorem HoldsEntry.next {g : q.engine.Tag} {e : Bool × q.engine.Data}
    (h : HoldsEntry (s.engine.slot g) e)
    (ha : ¬ (s.engine.acceptThisCycle (s.engineInputs b) = true ∧ (s.engineInputs b).m2sTag = g))
    (hc : ¬ (s.engine.respConsumedThisCycle (s.engineInputs b) = true ∧ s.engine.respTag = g)) :
    HoldsEntry (s.engine.slotNext (s.engineInputs b) g) e := by
  obtain ⟨_, hw, hd⟩ := slotNext_data_of_other ha hc
  refine ⟨hw.trans h.isWrite, fun hr => hd.trans (h.rdata hr), ?_⟩
  rw [slotNext_of_other ha hc]
  split
  case isTrue hcount =>
    have hpred := Engine.State.cnt_pred_toNat (bne_iff_ne.mp (Bool.and_eq_true_iff.mp hcount).2)
    have hle := h.count
    change BitVec.toNat ((s.engine.slot g).cnt - 1) ≤ _
    omega
  case isFalse => exact h.count

theorem Carrying.entry_of_active (h : Carrying m f s) (ha : s.engine.respActive = true) :
    (f s.engine.respTag).isSome = true := by
  rw [← h.slots]
  exact (eligible_iff.mp (h.offer ha)).1

/-- A cycle without a pending request strikes out the response that it consumes. -/
theorem Carrying.edge (h : Carrying m f s) (hb : Model.Unbiased s b)
    (hp : s.pendingValid = false) :
    Carrying m (if s.engine.respConsumedThisCycle (s.engineInputs b) then
      Function.update f s.engine.respTag none else f) (s.edge b) := by
  have haccept : s.engine.acceptThisCycle (s.engineInputs b) = false :=
    Shim.State.accepting_of_not_pending hp
  have hslot : (s.edge b).engine.slot = s.engine.slotNext (s.engineInputs b) := by
    rw [Shim.State.edge_engine hb.rstn]
    rfl
  refine ⟨?_, ?_, edge_offer hb.rstn h.offer, ?_, ?_, ?_⟩
  · apply biState_edge_idle hb.rstn h.handshake
    intro hv
    rw [hp] at hv
    cases hv
  · exact flushState_edge_idle_of hb.rstn h.eviction (Or.inr hp)
  · rw [Model.ofShim_idle hb (not_flush_of_idle h.eviction) haccept, h.model]
  · intro g
    rw [hslot, Bool.eq_iff_iff, slotNext_valid_iff h.offer g, haccept, h.slots g]
    cases s.engine.respConsumedThisCycle (s.engineInputs b) with
    | false => simp
    | true =>
        by_cases hg : s.engine.respTag = g
        · subst hg
          simp
        · simp [hg, Function.update_of_ne (Ne.symm hg)]
  · intro g e he
    rw [hslot]
    cases hc : s.engine.respConsumedThisCycle (s.engineInputs b) with
    | false =>
        rw [hc, if_neg Bool.false_ne_true] at he
        exact (h.holds g e he).next (by simp [haccept]) (by simp [hc])
    | true =>
        rw [hc, if_pos rfl] at he
        have hg : s.engine.respTag ≠ g := by
          rintro rfl
          rw [Function.update_self] at he
          cases he
        rw [Function.update_of_ne hg.symm] at he
        exact (h.holds g e he).next (by simp [haccept]) (by simp [hg])

theorem Quiet.not_consumed (hb : Quiet b) :
    s.engine.respConsumedThisCycle (s.engineInputs b) = false := by
  have hready : (s.engineInputs b).s2mReady = false := hb.ack
  rw [Engine.State.respConsumedThisCycle, hready, Bool.and_false]

/-- A quiet cycle without a pending request changes nothing. -/
theorem Carrying.edge_quiet (h : Carrying m f s) (hb : Quiet b) (hp : s.pendingValid = false) :
    Carrying m f (s.edge b) ∧ (s.edge b).pendingValid = false := by
  have hnext := h.edge (unbiased_of_carrying h hb.toPassive) hp
  rw [hb.not_consumed, if_neg Bool.false_ne_true] at hnext
  refine ⟨hnext, ?_⟩
  simp [Shim.State.edge, Shim.State.pendingValidNext, hb.fire, hp]

/-- `REQ_FIRE` queues the loaded request beside the unanswered ones. -/
theorem Carrying.edge_fire (h : Carrying m f s) (hp : s.pendingValid = false)
    (hl : Loaded r s) : Carrying m f (s.edge r.fireBus) ∧ Queued r (s.edge r.fireBus) := by
  have hconsume : s.engine.respConsumedThisCycle (s.engineInputs r.fireBus) = false := by
    rw [Engine.State.respConsumedThisCycle, show (s.engineInputs r.fireBus).s2mReady = false from
      rfl, Bool.and_false]
  have hnext := h.edge (b := r.fireBus)
    ⟨rfl, rfl, rfl, by simp [Engine.State.biFlipNow, h.handshake]⟩ hp
  rw [hconsume, if_neg Bool.false_ne_true] at hnext
  exact ⟨hnext, queued_edge hp hl⟩

/-- `RESP_ACK` strikes out the response that is shown. -/
theorem Carrying.edge_ack (h : Carrying m f s) (hb : Passive b) (hack : b.writeAck = true)
    (ha : s.engine.respActive = true) (hp : s.pendingValid = false) :
    Carrying m (Function.update f s.engine.respTag none) (s.edge b) ∧
      (s.edge b).pendingValid = false := by
  have hconsume : s.engine.respConsumedThisCycle (s.engineInputs b) = true := by
    rw [Engine.State.respConsumedThisCycle, ha]
    exact hack
  have hnext := h.edge (unbiased_of_carrying h hb) hp
  rw [hconsume, if_pos rfl] at hnext
  refine ⟨hnext, ?_⟩
  simp [Shim.State.edge, Shim.State.pendingValidNext, hb.fire, hp]

/-- A queued request that displaces nothing is accepted in the next cycle. -/
theorem Carrying.edge_accept (h : Carrying m f s) (hb : Quiet b) (hq : Queued r s)
    (hfree : f (r.tagBits q) = none) (hbias : m.bias (r.addrBits q) = false)
    (hn : ¬ m.Evicts (r.addrBits q)) :
    Carrying (m.access (r.access q)) (f.enter m r) (s.edge b) ∧
      (s.edge b).pendingValid = false := by
  have hquery : s.engine.bias s.reqAddr = false := by
    rw [hq.addr]
    rw [← h.model] at hbias
    exact hbias
  have htag : (s.engineInputs b).m2sTag = r.tagBits q := hq.tag
  have hvalid : (s.engine.slot (s.engineInputs b).m2sTag).valid = false := by
    rw [htag, h.slots, hfree]
    rfl
  have hneed : s.engine.needEvictWriteback (s.engineInputs b) = false := by
    rw [Bool.eq_false_iff, ne_eq, ← Model.evicts_ofShim, h.model, hq.addr]
    exact hn
  have haccept : s.engine.acceptThisCycle (s.engineInputs b) = true :=
    Engine.accept_iff.mpr ⟨hq.valid, hvalid, h.handshake, hquery, h.eviction, hneed⟩
  have hconsume := hb.not_consumed (s := s)
  have hslot : (s.edge b).engine.slot = s.engine.slotNext (s.engineInputs b) := by
    rw [Shim.State.edge_engine hb.rstn]
    rfl
  have haccepting : s.accepting b = true := haccept
  refine ⟨⟨?_, ?_, edge_offer hb.rstn h.offer, ?_, ?_, ?_⟩, ?_⟩
  · exact biState_edge_idle hb.rstn h.handshake fun _ => hquery
  · exact flushState_edge_idle_of hb.rstn h.eviction (Or.inl haccepting)
  · rw [Model.ofShim_accept (unbiased_of_carrying h hb.toPassive) haccept, h.model]
    exact Model.access_congr hq.addr hq.isWrite hq.wdata
  · intro g
    rw [hslot, Bool.eq_iff_iff, slotNext_valid_iff h.offer g, haccept, hconsume, htag, h.slots g,
      Ledger.enter]
    by_cases hg : r.tagBits q = g
    · subst hg
      simp
    · simp [hg, Function.update_of_ne (Ne.symm hg)]
  · intro g e he
    rw [hslot]
    by_cases hg : g = r.tagBits q
    · subst hg
      rw [Ledger.enter, Function.update_self] at he
      obtain rfl := Option.some.inj he
      rw [← htag, slotNext_of_accept haccept]
      refine ⟨hq.isWrite, ?_, ?_⟩
      · intro hr
        have hw : (s.engineInputs b).m2sIsWrite = false := hq.isWrite.trans hr
        rw [← h.model, ← hq.addr, Model.answer_ofShim (b := b)]
        simp only [Engine.State.acceptSlot, hw, Bool.not_false, if_true]
      · simp only [Engine.State.acceptSlot]
        split
        · exact Nat.zero_le _
        · rw [BitVec.toNat_ofNat, Nat.mod_eq_of_lt (readExtraLatency_lt q.engine)]
    · rw [Ledger.enter, Function.update_of_ne hg] at he
      apply (h.holds g e he).next _ (by simp [hconsume])
      rintro ⟨_, heq⟩
      exact hg (heq.symm.trans htag)
  · have hm2s : s.m2sReady b = true := (Bool.and_eq_true_iff.mp haccepting).2
    simp [Shim.State.edge, Shim.State.pendingValidNext, hb.fire, hq.valid, hm2s]

theorem Afloat.edge (h : Afloat m f s) (hb : Quiet b) :
    Carrying m f (s.edge b) ∧ (s.edge b).pendingValid = false := by
  cases h with
  | settled h hp => exact h.edge_quiet hb hp
  | queued h hq hfree hbias hn hm hf =>
      rw [← hm, ← hf]
      exact h.edge_accept hb hq hfree hbias hn

theorem Afloat.offer (h : Afloat m f s) : s.engine.OfferReady := by
  cases h with
  | settled h _ => exact h.offer
  | queued h _ _ _ _ _ _ => exact h.offer

/-- A shown response is that of an unanswered request. -/
theorem Afloat.entry_of_active (h : Afloat m f s) (ha : s.engine.respActive = true) :
    (f s.engine.respTag).isSome = true := by
  cases h with
  | settled h _ => exact h.entry_of_active ha
  | @queued m₀ f₀ r _ h _ _ _ _ _ hf =>
      rw [← hf, Ledger.enter]
      by_cases hg : s.engine.respTag = r.tagBits q
      · rw [hg, Function.update_self]
        rfl
      · rw [Function.update_of_ne hg]
        exact h.entry_of_active ha

/-- With an empty ledger the shim is at rest. -/
theorem Afloat.rest (h : Afloat m f s) (hf : ∀ g, f g = none) : Rest m s := by
  cases h with
  | settled h hp =>
      refine ⟨⟨hp, h.handshake, h.eviction, ?_⟩, h.offer, h.model⟩
      intro g
      rw [h.slots, hf]
      rfl
  | @queued m₀ f₀ r _ _ _ _ _ _ _ hf₀ =>
      have hentry := hf (r.tagBits q)
      rw [← hf₀, Ledger.enter, Function.update_self] at hentry
      cases hentry

theorem Rest.afloat (h : Rest m s) : Afloat m (fun _ => none) s := by
  apply Afloat.settled _ h.quiescent.pending
  refine ⟨h.quiescent.handshake, h.quiescent.eviction, h.offer, h.model, ?_, ?_⟩
  · intro g
    exact h.quiescent.slots g
  · intro g e he
    cases he

end Cycles

section Waiting

variable {m : Model q.engine} {f : Ledger q} {s : Shim.State q} {b : Bus} {k : ℕ}

/-- A response is shown within `k` cycles. -/
def Near (k : ℕ) (s : Shim.State q) : Prop :=
  s.engine.respActive = true ∨
    (∃ g, (s.engine.slot g).valid = true ∧ (s.engine.slot g).cnt.toNat + 1 ≤ k) ∨
      s.pendingValid = true ∧ q.engine.readExtraLatency + 2 ≤ k

/-- An unanswered request brings a response near. -/
theorem Carrying.near (h : Carrying m f s) {g : q.engine.Tag} (hg : (f g).isSome = true) :
    Near (q.engine.readExtraLatency + 1) s := by
  obtain ⟨e, he⟩ := Option.isSome_iff_exists.mp hg
  refine Or.inr (Or.inl ⟨g, ?_, Nat.succ_le_succ (h.holds g e he).count⟩)
  rw [h.slots, hg]

theorem Near.mono {k' : ℕ} (h : Near k s) (hk : k ≤ k') : Near k' s := by
  rcases h with ha | ⟨g, hv, hg⟩ | ⟨hp, hle⟩
  · exact Or.inl ha
  · exact Or.inr (Or.inl ⟨g, hv, hg.trans hk⟩)
  · exact Or.inr (Or.inr ⟨hp, hle.trans hk⟩)

/-- Without an acknowledge a shown response stays and a slot in use counts down. -/
theorem near_edge (ho : s.engine.OfferReady) (hrst : b.rstn = true) (hack : b.writeAck = false)
    (h : s.engine.respActive = true ∨
      ∃ g, (s.engine.slot g).valid = true ∧ (s.engine.slot g).cnt.toNat + 1 ≤ k) :
    Near (k - 1) (s.edge b) ∧ (s.engine.respActive = false → 0 < k) := by
  have hedge : (s.edge b).engine = s.engine.edge (s.engineInputs b) :=
    Shim.State.edge_engine hrst
  cases ha : s.engine.respActive with
  | true =>
      refine ⟨?_, fun hno => by cases hno⟩
      left
      rw [hedge]
      exact (offer_kept ho ha hack).1
  | false =>
      rcases h with hactive | ⟨g, hv, hg⟩
      · rw [ha] at hactive
        cases hactive
      refine ⟨?_, fun _ => by omega⟩
      by_cases helig : s.engine.eligible g = true
      · left
        have hfound := arb_found_iff.mpr ⟨g, helig⟩
        rw [hedge]
        simp [Engine.State.edge, Engine.State.respActiveNext, ha, hfound]
      · right
        left
        have hne : (s.engine.slot g).cnt ≠ 0 := by
          intro hz
          exact helig (eligible_iff.mpr ⟨hv, hz⟩)
        have hpred := Engine.State.cnt_pred_toNat hne
        have hnext : (s.edge b).engine.slot g =
            { s.engine.slot g with cnt := (s.engine.slot g).cnt - 1 } := by
          rw [hedge]
          change s.engine.slotNext (s.engineInputs b) g = _
          rw [slotNext_of_other (not_accept_of_valid hv) (by simp [not_consumed_of_ack hack]), hv,
            Bool.true_and, if_pos (bne_iff_ne.mpr hne)]
        refine ⟨g, ?_, ?_⟩
        · rw [hnext]
          exact hv
        · rw [hnext]
          change BitVec.toNat ((s.engine.slot g).cnt - 1) + 1 ≤ k - 1
          omega

/-- Each quiet cycle brings the response nearer, until it is shown. -/
theorem Near.edge (h : Near k s) (hf : Afloat m f s) (hb : Quiet b) :
    Near (k - 1) (s.edge b) ∧ (s.engine.respActive = false → 0 < k) := by
  rcases h with ha | hslot | ⟨hp, hle⟩
  · exact near_edge hf.offer hb.rstn hb.ack (Or.inl ha)
  · exact near_edge hf.offer hb.rstn hb.ack (Or.inr hslot)
  · refine ⟨?_, fun _ => by omega⟩
    cases hf with
    | settled _ hno =>
        rw [hp] at hno
        cases hno
    | @queued m₀ f₀ r _ h hq hfree hbias hn _ _ =>
        have hnext := (h.edge_accept hb hq hfree hbias hn).1
        apply (hnext.near (g := r.tagBits q) _).mono
        · omega
        · rw [Ledger.enter, Function.update_self]
          rfl

end Waiting

end CxlLite.Hps
