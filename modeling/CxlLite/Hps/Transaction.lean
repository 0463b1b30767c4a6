import CxlLite.Engine.Latency
import CxlLite.Hps.Model

/-!
# One request from its acceptance to its response

Starting from a shim at rest, a fired request goes through a fixed sequence of
cycles: a flush if it displaces unwritten data, its acceptance, the extra
latency of a read miss, and the arbitration. `Serving` counts the cycles that
are left until the response is shown.
-/

namespace CxlLite.Hps

open DirectMapped Engine

variable {q : ShimParams}

/-- A request as software passes it to `fire`. -/
structure Request where
  isWrite : Bool
  addr : BitVec 32
  tag : BitVec 32
  wdata : BitVec 32

namespace Request

variable (q) (r : Request)

def addrBits : q.engine.Addr := r.addr.extractLsb' 0 q.addrW

def tagBits : q.engine.Tag := r.tag.extractLsb' 0 q.tagW

def dataBits : q.engine.Data := r.wdata.extractLsb' 0 q.dataW

/-- The request as the registers of the shim take it. -/
def access : WriteBackCache.Access q.engine.Addr q.engine.Data :=
  ⟨r.addrBits q, r.isWrite, r.dataBits q⟩

end Request

/-- The extra cycles that a request waits for after its acceptance. -/
def Model.latency (m : Model q.engine) (r : Request) : ℕ :=
  if r.isWrite = true ∨ m.Hit (r.addrBits q) then 0 else q.engine.readExtraLatency

theorem Model.latency_evict (m : Model q.engine) (r : Request) (a : q.engine.Addr) :
    (m.evict a).latency r = m.latency r :=
  if_congr (or_congr_right (Model.hit_evict _)) rfl rfl

section Predicates

/-- The shim is at rest and stands for `m`. -/
structure Rest (m : Model q.engine) (s : Shim.State q) : Prop where
  quiescent : s.Quiescent
  offer : s.engine.OfferReady
  model : Model.ofShim s = m

/-- The request waits in the pending register. -/
structure Queued (r : Request) (s : Shim.State q) : Prop where
  valid : s.pendingValid = true
  addr : s.reqAddr = r.addrBits q
  isWrite : s.pendingIsWrite = r.isWrite
  tag : s.pendingTag = r.tagBits q
  wdata : r.isWrite = true → s.reqWdata = r.dataBits q

/-- The request waits in the pending register, and nothing else is going on. -/
structure Pending (r : Request) (s : Shim.State q) : Prop extends Queued r s where
  slots : ∀ g, (s.engine.slot g).valid = false
  offer : s.engine.OfferReady

/-- The pending request will be accepted: it will return `d`, wait for `c` extra
cycles, and leave the model `m`. -/
structure Waiting (r : Request) (d : q.engine.Data) (m : Model q.engine) (c : ℕ)
    (s : Shim.State q) : Prop extends Pending r s where
  handshake : s.engine.biState = .idle
  bias : s.engine.bias (r.addrBits q) = false
  answer : (Model.ofShim s).answer (r.addrBits q) = d
  model : (Model.ofShim s).access (r.access q) = m
  latency : (Model.ofShim s).latency r = c

/-- The request has been accepted, and no other slot is in use. -/
structure Accepted (r : Request) (d : q.engine.Data) (m : Model q.engine)
    (s : Shim.State q) : Prop where
  pending : s.pendingValid = false
  handshake : s.engine.biState = .idle
  eviction : s.engine.flushState = .idle
  slots : ∀ g, (s.engine.slot g).valid = true ↔ g = r.tagBits q
  isWrite : (s.engine.slot (r.tagBits q)).isWrite = r.isWrite
  rdata : r.isWrite = false → (s.engine.slot (r.tagBits q)).rdata = d
  model : Model.ofShim s = m
  offer : s.engine.OfferReady

/-- The request is served with data `d` and leaves the model `m`; its response is
shown after exactly `k` more cycles. -/
inductive Serving (r : Request) (d : q.engine.Data) (m : Model q.engine) (c : ℕ) :
    ℕ → Shim.State q → Prop
  | evict {s} (h : Waiting r d m c s) (hf : s.engine.flushState = .idle)
      (hn : (Model.ofShim s).Evicts (r.addrBits q)) : Serving r d m c (c + 4) s
  | flush {s} (h : Waiting r d m c s) (hf : s.engine.flushState = .active)
      (hn : (Model.ofShim s).Evicts (r.addrBits q)) : Serving r d m c (c + 3) s
  | ready {s} (h : Waiting r d m c s) (hf : s.engine.flushState = .idle)
      (hn : ¬ (Model.ofShim s).Evicts (r.addrBits q)) : Serving r d m c (c + 2) s
  | count {s n} (h : Accepted r d m s) (hc : (s.engine.slot (r.tagBits q)).cnt.toNat = n)
      (ha : s.engine.respActive = false) : Serving r d m c (n + 1) s
  | offer {s} (h : Accepted r d m s) (ha : s.engine.respActive = true) : Serving r d m c 0 s

/-- A released cycle that writes nothing a request in service depends on. -/
structure Undisturbing (b : Shim.Bus) : Prop where
  rstn : b.rstn = true
  reqAddr : b.writes Shim.addrReqAddr = false
  reqWdata : b.writes Shim.addrReqWdata = false
  fire : b.writeFire = false
  ack : b.writeAck = false
  bias : b.writeBias = false
  bypass : b.writeBypass = false

/-- A released cycle that neither fires nor acknowledges and changes neither bias nor
bypass. -/
structure Calm (b : Shim.Bus) : Prop where
  rstn : b.rstn = true
  fire : b.writeFire = false
  ack : b.writeAck = false
  bias : b.writeBias = false
  bypass : b.writeBypass = false

theorem Undisturbing.calm {b : Shim.Bus} (hb : Undisturbing b) : Calm b :=
  ⟨hb.rstn, hb.fire, hb.ack, hb.bias, hb.bypass⟩

theorem undisturbing_of_no_write {b : Shim.Bus} (hrst : b.rstn = true) (h : b.avsWrite = false) :
    Undisturbing b := by
  constructor <;> first | exact hrst | exact Shim.Bus.writes_of_no_write h _

end Predicates

section Cycles

variable {r : Request} {d : q.engine.Data} {m : Model q.engine} {c k : ℕ} {s : Shim.State q}
  {b : Shim.Bus}

theorem unbiased_of_idle (hb : Calm b) (h : s.engine.biState = .idle) :
    Model.Unbiased s b where
  rstn := hb.rstn
  bias := hb.bias
  bypass := hb.bypass
  flip := by simp [Engine.State.biFlipNow, h]

theorem not_consumed_of_ack (hack : b.writeAck = false) :
    s.engine.respConsumedThisCycle (s.engineInputs b) = false := by
  have hready : (s.engineInputs b).s2mReady = false := hack
  rw [Engine.State.respConsumedThisCycle, hready, Bool.and_false]

/-- The request registers keep their values. -/
theorem Undisturbing.latched (hb : Undisturbing b) :
    (s.edge b).reqAddr = s.reqAddr ∧ (s.edge b).reqWdata = s.reqWdata ∧
      (s.edge b).pendingTag = s.pendingTag ∧ (s.edge b).pendingIsWrite = s.pendingIsWrite := by
  simp [Shim.State.edge, Shim.State.reqAddrNext, Shim.State.reqWdataNext,
    Shim.State.pendingTagNext, Shim.State.pendingIsWriteNext, hb.reqAddr, hb.reqWdata, hb.fire]

theorem Calm.pendingValid (hb : Calm b) :
    (s.edge b).pendingValid = (s.pendingValid && !s.m2sReady b) := by
  simp only [Shim.State.edge, Shim.State.pendingValidNext, hb.fire, Bool.false_and,
    Bool.false_eq_true, if_false]
  cases s.pendingValid <;> cases s.m2sReady b <;> rfl

/-- The handshake sequencer rests while no Host-Biased address is requested. -/
theorem biState_edge_idle (hrst : b.rstn = true) (h : s.engine.biState = .idle)
    (hbias : s.pendingValid = true → s.engine.bias s.reqAddr = false) :
    (s.edge b).engine.biState = .idle := by
  have hwant : s.engine.wantBi (s.engineInputs b) = false := by
    cases hp : s.pendingValid with
    | false =>
        have hvalid : (s.engineInputs b).m2sValid = false := hp
        simp [Engine.State.wantBi, hvalid]
    | true =>
        have hquery : s.engine.biasQueryRdData (s.engineInputs b) = false := hbias hp
        simp [Engine.State.wantBi, hquery]
  rw [Shim.State.edge_engine hrst]
  simp [Engine.State.edge, Engine.State.biStateNext, h, hwant]

/-- No eviction starts in a cycle in which the request is accepted or there is none. -/
theorem flushState_edge_idle_of (hrst : b.rstn = true) (hidle : s.engine.flushState = .idle)
    (h : s.accepting b = true ∨ s.pendingValid = false) :
    (s.edge b).engine.flushState = .idle := by
  have hwant : s.engine.wantFlush (s.engineInputs b) = false := by
    rcases h with ha | hp
    · rw [Shim.State.accepting_eq] at ha
      have hneed := (Engine.accept_iff.mp ha).2.2.2.2.2
      simp [Engine.State.wantFlush, hneed]
    · have hvalid : (s.engineInputs b).m2sValid = false := hp
      simp [Engine.State.wantFlush, hvalid]
  rw [Shim.State.edge_engine hrst]
  simp [Engine.State.edge, Engine.State.flushStateNext, hidle, hwant]

theorem edge_offer (hrst : b.rstn = true) (h : s.engine.OfferReady) :
    (s.edge b).engine.OfferReady := by
  rw [Shim.State.edge_engine hrst]
  exact edge_offerReady h

theorem respActive_of_free (h : s.engine.OfferReady) (hs : ∀ g, (s.engine.slot g).valid = false) :
    s.engine.respActive = false := by
  rw [Bool.eq_false_iff]
  intro ha
  have hvalid := (eligible_iff.mp (h ha)).1
  rw [hs] at hvalid
  cases hvalid

/-- While nothing is offered and no slot may answer, nothing is offered next. -/
theorem respActive_edge_of_none (hrst : b.rstn = true) (ha : s.engine.respActive = false)
    (hno : ∀ g, s.engine.eligible g = false) : (s.edge b).engine.respActive = false := by
  have hfound : s.engine.arb.1 = false := by
    rw [Bool.eq_false_iff]
    intro hf
    obtain ⟨g, hg⟩ := arb_found_iff.mp hf
    rw [hno g] at hg
    cases hg
  rw [Shim.State.edge_engine hrst]
  simp [Engine.State.edge, Engine.State.respActiveNext, ha, hfound]

/-- A request that is not accepted stays pending. -/
theorem Pending.edge (h : Pending r s) (hb : Undisturbing b) (hready : s.m2sReady b = false) :
    Pending r (s.edge b) := by
  obtain ⟨haddr, hwdata, htag, hisWrite⟩ := hb.latched (s := s)
  have haccept : s.accepting b = false := by simp [Shim.State.accepting, hready]
  refine ⟨⟨?_, ?_, ?_, ?_, ?_⟩, ?_, edge_offer hb.rstn h.offer⟩
  · rw [hb.calm.pendingValid, h.valid, hready]
    rfl
  · rw [haddr, h.addr]
  · rw [hisWrite, h.isWrite]
  · rw [htag, h.tag]
  · rw [hwdata]
    exact h.wdata
  · intro g
    rw [Bool.eq_false_iff, ne_eq, Shim.State.edge_engine hb.rstn]
    intro hg
    rcases (slotNext_valid_iff h.offer g).mp hg with ⟨ha, _⟩ | ⟨hv, _⟩
    · rw [← Shim.State.accepting_eq, haccept] at ha
      cases ha
    · rw [h.slots] at hv
      cases hv

section Waiting

theorem Waiting.handshake_edge (h : Waiting r d m c s) (hb : Calm b) :
    (s.edge b).engine.biState = .idle := by
  apply biState_edge_idle hb.rstn h.handshake
  intro _
  rw [h.addr]
  exact h.bias

/-- A request that is not accepted keeps waiting for the same outcome, as long
as the model promises the same. -/
theorem Waiting.edge (h : Waiting r d m c s) (hb : Undisturbing b)
    (hready : s.m2sReady b = false)
    (hanswer : (Model.ofShim (s.edge b)).answer (r.addrBits q) = d)
    (hmodel : (Model.ofShim (s.edge b)).access (r.access q) = m)
    (hlatency : (Model.ofShim (s.edge b)).latency r = c) : Waiting r d m c (s.edge b) := by
  refine ⟨h.toPending.edge hb hready, h.handshake_edge hb.calm, ?_, hanswer, hmodel, hlatency⟩
  rw [(unbiased_of_idle hb.calm h.handshake).bias_edge]
  exact h.bias

theorem Waiting.evicts_iff (h : Waiting r d m c s) :
    (Model.ofShim s).Evicts (r.addrBits q) ↔
      s.engine.needEvictWriteback (s.engineInputs b) = true := by
  rw [← h.addr]
  exact Model.evicts_ofShim

/-- Without a flush in progress, a waiting request is accepted at once or has to evict. -/
theorem Waiting.accept_iff (h : Waiting r d m c s) (hf : s.engine.flushState = .idle) :
    s.accepting b = true ↔ ¬ (Model.ofShim s).Evicts (r.addrBits q) := by
  have hbias : s.engine.bias s.reqAddr = false := by
    rw [h.addr]
    exact h.bias
  rw [h.evicts_iff (b := b), Shim.State.accepting_eq, Engine.accept_iff, Bool.not_eq_true]
  constructor
  · intro ha
    exact ha.2.2.2.2.2
  · intro hneed
    exact ⟨h.valid, h.slots _, h.handshake, hbias, hf, hneed⟩

theorem Waiting.m2sReady_eq (h : Waiting r d m c s) : s.m2sReady b = s.accepting b := by
  rw [Shim.State.accepting, h.valid, Bool.true_and]

/-- A request that has to evict starts a flush. -/
theorem Serving.edge_evict (h : Waiting r d m c s) (hf : s.engine.flushState = .idle)
    (hn : (Model.ofShim s).Evicts (r.addrBits q)) (hb : Undisturbing b) :
    Serving r d m c (c + 3) (s.edge b) := by
  have haccept : s.accepting b = false := by
    rw [Bool.eq_false_iff]
    intro ha
    exact (h.accept_iff hf).mp ha hn
  have hsame : Model.ofShim (s.edge b) = Model.ofShim s :=
    Model.ofShim_idle (unbiased_of_idle hb.calm h.handshake) (not_flush_of_idle hf) haccept
  have hnext : Waiting r d m c (s.edge b) := by
    apply h.edge hb
    · rw [h.m2sReady_eq, haccept]
    · rw [hsame]; exact h.answer
    · rw [hsame]; exact h.model
    · rw [hsame]; exact h.latency
  apply Serving.flush hnext
  · have hbias : s.engine.bias s.reqAddr = false := by
      rw [h.addr]
      exact h.bias
    have hwant : s.engine.wantFlush (s.engineInputs b) = true :=
      wantFlush_iff.mpr ⟨hf, h.handshake, hbias, h.valid, h.evicts_iff.mp hn⟩
    rw [Shim.State.edge_engine hb.rstn]
    simp [Engine.State.edge, Engine.State.flushStateNext, hf, hwant]
  · rwa [hsame]

/-- The flush cycle leaves a request that can be accepted. -/
theorem Serving.edge_flush (h : Waiting r d m c s) (hf : s.engine.flushState = .active)
    (hn : (Model.ofShim s).Evicts (r.addrBits q)) (hb : Undisturbing b) :
    Serving r d m c (c + 2) (s.edge b) := by
  have hflush := flush_iff.mpr hf
  have hevict : Model.ofShim (s.edge b) = (Model.ofShim s).evict (r.addrBits q) := by
    rw [← h.addr]
    exact Model.ofShim_flush (unbiased_of_idle hb.calm h.handshake) hflush
  apply Serving.ready
  · apply h.edge hb
    · exact not_ready_of_flush hflush
    · rw [hevict, Model.answer_evict hn]
      exact h.answer
    · rw [hevict]
      exact (Model.access_evict (r := r.access q) hn).trans h.model
    · rw [hevict, Model.latency_evict]
      exact h.latency
  · rw [Shim.State.edge_engine hb.rstn]
    simp [Engine.State.edge, Engine.State.flushStateNext, hf]
  · rw [hevict]
    exact Model.not_evicts_evict

theorem Waiting.latency_eq (h : Waiting r d m c s) :
    (if s.pendingIsWrite || s.engine.cacheHitEff (s.engineInputs b) then (0 : q.engine.Cnt)
      else BitVec.ofNat q.engine.cntW q.engine.readExtraLatency).toNat = c := by
  have hhit := Model.hit_ofShim (s := s) (b := b)
  rw [h.addr] at hhit
  rw [← h.latency, Model.latency, h.isWrite]
  simp only [hhit, ← Bool.or_eq_true]
  split
  · rfl
  · rw [BitVec.toNat_ofNat, Nat.mod_eq_of_lt (readExtraLatency_lt q.engine)]

/-- The acceptance fills the slot of the request. -/
theorem Serving.edge_ready (h : Waiting r d m c s) (hf : s.engine.flushState = .idle)
    (hn : ¬ (Model.ofShim s).Evicts (r.addrBits q)) (hb : Calm b) :
    Serving r d m c (c + 1) (s.edge b) := by
  have haccept : s.accepting b = true := (h.accept_iff hf).mpr hn
  have ha : s.engine.acceptThisCycle (s.engineInputs b) = true := haccept
  have hinactive := respActive_of_free h.offer h.slots
  have hslot : (s.edge b).engine.slot (r.tagBits q) =
      s.engine.acceptSlot (s.engineInputs b) (s.engine.slot (r.tagBits q)) := by
    rw [Shim.State.edge_engine hb.rstn, ← h.tag]
    exact slotNext_of_accept ha
  apply Serving.count
  · constructor
    · rw [hb.pendingValid, h.valid, h.m2sReady_eq, haccept]
      rfl
    · exact h.handshake_edge hb
    · exact flushState_edge_idle_of hb.rstn hf (Or.inl haccept)
    · intro g
      rw [Shim.State.edge_engine hb.rstn]
      refine (slotNext_valid_iff h.offer g).trans ?_
      rw [ha, h.slots, show (s.engineInputs b).m2sTag = s.pendingTag from rfl, h.tag]
      constructor
      · rintro (⟨_, hg⟩ | ⟨hbusy, _⟩)
        · exact hg.symm
        · cases hbusy
      · intro hg
        exact Or.inl ⟨rfl, hg.symm⟩
    · rw [hslot, ← h.isWrite]
      rfl
    · intro hr
      have hw : (s.engineInputs b).m2sIsWrite = false := h.isWrite.trans hr
      rw [hslot, ← h.answer, ← h.addr, Model.answer_ofShim (b := b)]
      simp only [Engine.State.acceptSlot, hw, Bool.not_false, if_true]
    · rw [Model.ofShim_accept (unbiased_of_idle hb h.handshake) ha, ← h.model]
      apply Model.access_congr
      · exact h.addr
      · exact h.isWrite
      · exact h.wdata
    · exact edge_offer hb.rstn h.offer
  · rw [hslot]
    exact h.latency_eq
  · apply respActive_edge_of_none hb.rstn hinactive
    intro g
    simp [Engine.State.eligible, h.slots]

end Waiting

section Accepted

/-- The request is in its slot, and no other slot is in use. -/
structure InSlot (r : Request) (d : q.engine.Data) (s : Shim.State q) : Prop where
  slots : ∀ g, (s.engine.slot g).valid = true ↔ g = r.tagBits q
  isWrite : (s.engine.slot (r.tagBits q)).isWrite = r.isWrite
  rdata : r.isWrite = false → (s.engine.slot (r.tagBits q)).rdata = d
  offer : s.engine.OfferReady

/-- The response of the request in its slot is shown after exactly so many more cycles. -/
def Countdown (r : Request) : ℕ → Shim.State q → Prop
  | 0, s => s.engine.respActive = true
  | n + 1, s => s.engine.respActive = false ∧ (s.engine.slot (r.tagBits q)).cnt.toNat = n

theorem Countdown.respActive_iff (h : Countdown r k s) : s.engine.respActive = true ↔ k = 0 := by
  cases k with
  | zero => exact iff_of_true h rfl
  | succ n => exact iff_of_false (by simp [h.1]) (Nat.succ_ne_zero n)

/-- A request that is neither joined nor answered stays in its slot. -/
theorem InSlot.edge (h : InSlot r d s) (hrst : b.rstn = true) (haccept : s.accepting b = false)
    (hack : b.writeAck = false) : InSlot r d (s.edge b) := by
  have hkeep := slotNext_data_of_other (s := s.engine) (i := s.engineInputs b)
    (t := r.tagBits q) (by simp [← Shim.State.accepting_eq, haccept])
    (by simp [not_consumed_of_ack hack])
  have hslot : (s.edge b).engine.slot = s.engine.slotNext (s.engineInputs b) := by
    rw [Shim.State.edge_engine hrst]
    rfl
  constructor
  · intro g
    rw [hslot, slotNext_valid_iff h.offer, ← Shim.State.accepting_eq, haccept,
      not_consumed_of_ack hack, h.slots]
    simp
  · rw [hslot, hkeep.2.1, h.isWrite]
  · intro hr
    rw [hslot, hkeep.2.2]
    exact h.rdata hr
  · exact edge_offer hrst h.offer

/-- The countdown of a request in its slot, and its offer when the count is used up. -/
theorem InSlot.countdown (h : InSlot r d s) (hk : Countdown r k s) (hrst : b.rstn = true)
    (haccept : s.accepting b = false) (hack : b.writeAck = false) :
    Countdown r (k - 1) (s.edge b) := by
  have hvalid : (s.engine.slot (r.tagBits q)).valid = true := (h.slots _).mpr rfl
  have hother : ∀ g, s.engine.eligible g = true → g = r.tagBits q := by
    intro g hg
    exact (h.slots g).mp (eligible_iff.mp hg).1
  match k, hk with
  | 0, ha =>
      change (s.edge b).engine.respActive = true
      rw [Shim.State.edge_engine hrst]
      exact (offer_kept h.offer ha hack).1
  | 1, ⟨ha, hc⟩ =>
      have hzero : (s.engine.slot (r.tagBits q)).cnt = 0 := BitVec.eq_of_toNat_eq hc
      have hfound : s.engine.arb.1 = true :=
        arb_found_iff.mpr ⟨_, eligible_iff.mpr ⟨hvalid, hzero⟩⟩
      change (s.edge b).engine.respActive = true
      rw [Shim.State.edge_engine hrst]
      simp [Engine.State.edge, Engine.State.respActiveNext, ha, hfound]
  | n + 2, ⟨ha, hc⟩ =>
      have hne : (s.engine.slot (r.tagBits q)).cnt ≠ 0 := by
        intro hz
        rw [hz] at hc
        cases hc
      change (s.edge b).engine.respActive = false ∧
        ((s.edge b).engine.slot (r.tagBits q)).cnt.toNat = n
      constructor
      · apply respActive_edge_of_none hrst ha
        intro g
        rw [Bool.eq_false_iff]
        intro hg
        obtain rfl := hother g hg
        exact hne (eligible_iff.mp hg).2
      · rw [Shim.State.edge_engine hrst]
        change (s.engine.slotNext (s.engineInputs b) (r.tagBits q)).cnt.toNat = n
        rw [slotNext_of_other, hvalid, Bool.true_and, if_pos (bne_iff_ne.mpr hne)]
        · have hpred := Engine.State.cnt_pred_toNat hne
          change BitVec.toNat ((s.engine.slot (r.tagBits q)).cnt - 1) = n
          omega
        · simp [← Shim.State.accepting_eq, haccept]
        · simp [not_consumed_of_ack hack]

theorem Accepted.inSlot (h : Accepted r d m s) : InSlot r d s :=
  ⟨h.slots, h.isWrite, h.rdata, h.offer⟩

theorem Accepted.not_accepting (h : Accepted r d m s) : s.accepting b = false :=
  Shim.State.accepting_of_not_pending h.pending

/-- Nothing but its own slot moves while an accepted request waits for its response. -/
theorem Accepted.edge (h : Accepted r d m s) (hb : Calm b) : Accepted r d m (s.edge b) := by
  obtain ⟨hslots, hisWrite, hrdata, hoffer⟩ := h.inSlot.edge hb.rstn h.not_accepting hb.ack
  refine ⟨?_, ?_, ?_, hslots, hisWrite, hrdata, ?_, hoffer⟩
  · rw [hb.pendingValid, h.pending, Bool.false_and]
  · apply biState_edge_idle hb.rstn h.handshake
    intro hp
    rw [h.pending] at hp
    cases hp
  · exact flushState_edge_idle_of hb.rstn h.eviction (Or.inr h.pending)
  · rw [Model.ofShim_idle (unbiased_of_idle hb h.handshake) (not_flush_of_idle h.eviction)
      h.not_accepting]
    exact h.model

theorem Accepted.countdown_edge (h : Accepted r d m s) (hk : Countdown r k s) (hb : Calm b) :
    Countdown r (k - 1) (s.edge b) := h.inSlot.countdown hk hb.rstn h.not_accepting hb.ack

/-- An accepted request is in service. -/
theorem Accepted.serving (h : Accepted r d m s) (hk : Countdown r k s) : Serving r d m c k s := by
  cases k with
  | zero => exact Serving.offer h hk
  | succ k => exact Serving.count h hk.2 hk.1

end Accepted

/-- Every undisturbed cycle brings a request in service one cycle nearer to its
response, and a shown response stays. -/
theorem Serving.edge (h : Serving r d m c k s) (hb : Undisturbing b) :
    Serving r d m c (k - 1) (s.edge b) := by
  cases h with
  | evict h hf hn => exact Serving.edge_evict h hf hn hb
  | flush h hf hn => exact Serving.edge_flush h hf hn hb
  | ready h hf hn => exact Serving.edge_ready h hf hn hb.calm
  | count h hc ha =>
      have hk : Countdown r (_ + 1) s := ⟨ha, hc⟩
      exact (h.edge hb.calm).serving (h.countdown_edge hk hb.calm)
  | offer h ha =>
      have hk : Countdown r 0 s := ha
      exact (h.edge hb.calm).serving (h.countdown_edge hk hb.calm)

/-- The response is shown in the last cycle of a request's service, and not before. -/
theorem Serving.respActive_iff (h : Serving r d m c k s) :
    s.engine.respActive = true ↔ k = 0 := by
  cases h with
  | evict h _ _ | flush h _ _ | ready h _ _ => simp [respActive_of_free h.offer h.slots]
  | count _ _ ha => simp [ha]
  | offer _ ha => simp [ha]

theorem Serving.accepted (h : Serving r d m c 0 s) :
    Accepted r d m s ∧ s.engine.respActive = true := by
  cases h with
  | offer h ha => exact ⟨h, ha⟩

end Cycles

section Firing

variable {m : Model q.engine} {r : Request} {s : Shim.State q} {b : Shim.Bus}

/-- The `REQ_FIRE` word of a request. -/
def Request.fireWord (r : Request) : BitVec 32 := r.tag <<< 4 ||| if r.isWrite then 1 else 0

/-- The bus cycle that fires a request. -/
def Request.fireBus (r : Request) : Shim.Bus := ⟨true, Shim.addrReqFire, true, r.fireWord⟩

/-- `REQ_ADDR` and, for a write, `REQ_WDATA` hold the request. -/
structure Loaded (r : Request) (s : Shim.State q) : Prop where
  addr : s.reqAddr = r.addrBits q
  wdata : r.isWrite = true → s.reqWdata = r.dataBits q

/-- The request has just been fired at a shim that stands for `m`. -/
structure Fired (r : Request) (m : Model q.engine) (s : Shim.State q) : Prop
    extends Pending r s where
  handshake : s.engine.biState = .idle
  eviction : s.engine.flushState = .idle
  model : Model.ofShim s = m

theorem fireBus_tag (r : Request) : r.fireBus.writeTag q = r.tagBits q := by
  have hw := q.tagW_add_le
  ext i hi
  have hi' : i < q.tagW := hi
  have hlow : (if r.isWrite then (1 : BitVec 32) else 0).getLsbD (4 + i) = false := by
    cases r.isWrite <;> simp [BitVec.getLsbD_one]
  simp only [Shim.Bus.writeTag, Request.fireBus, Request.fireWord, Request.tagBits,
    BitVec.getElem_extractLsb', BitVec.getLsbD_or, BitVec.getLsbD_shiftLeft, hlow, Bool.or_false]
  have h32 : 4 + i < 32 := by omega
  simp [h32]

theorem fireBus_isWrite (r : Request) : r.fireBus.writeBit = r.isWrite := by
  simp only [Shim.Bus.writeBit, Request.fireBus, Request.fireWord, BitVec.getLsbD_or,
    BitVec.getLsbD_shiftLeft]
  cases r.isWrite <;> simp

/-- A released cycle that fires nothing and changes neither bias nor bypass. -/
structure Passive (b : Shim.Bus) : Prop where
  rstn : b.rstn = true
  fire : b.writeFire = false
  bias : b.writeBias = false
  bypass : b.writeBypass = false

theorem passive_of_no_write (hrst : b.rstn = true) (h : b.avsWrite = false) : Passive b := by
  constructor
  · exact hrst
  all_goals exact Shim.Bus.writes_of_no_write h _

theorem Rest.not_accept (h : Rest m s) :
    s.engine.acceptThisCycle (s.engineInputs b) = false := by
  have hvalid : (s.engineInputs b).m2sValid = false := h.quiescent.pending
  rw [Engine.State.acceptThisCycle, hvalid, Bool.false_and]

theorem Rest.not_flush (h : Rest m s) : s.engine.doFlushWriteThisCycle = false :=
  not_flush_of_idle h.quiescent.eviction

theorem Rest.edge (h : Rest m s) (hb : Passive b) : Rest m (s.edge b) where
  quiescent := h.quiescent.edge h.offer hb.rstn hb.fire
  offer := edge_offer hb.rstn h.offer
  model := by
    have hidle : Model.Unbiased s b :=
      ⟨hb.rstn, hb.bias, hb.bypass, by simp [Engine.State.biFlipNow, h.quiescent.handshake]⟩
    rw [Model.ofShim_idle hidle h.not_flush h.not_accept, h.model]

/-- `REQ_FIRE` queues a loaded request when none is pending. -/
theorem queued_edge (hp : s.pendingValid = false) (hl : Loaded r s) :
    Queued r (s.edge r.fireBus) := by
  have hfire : r.fireBus.writeFire = true := rfl
  refine ⟨?_, hl.addr, ?_, ?_, hl.wdata⟩
  · simp [Shim.State.edge, Shim.State.pendingValidNext, hfire, hp]
  · simp only [Shim.State.edge, Shim.State.pendingIsWriteNext, hfire, hp]
    exact fireBus_isWrite r
  · simp only [Shim.State.edge, Shim.State.pendingTagNext, hfire, hp]
    exact fireBus_tag r

/-- `REQ_FIRE` makes a loaded request pending. -/
theorem fired_edge (h : Rest m s) (hl : Loaded r s) : Fired r m (s.edge r.fireBus) := by
  have hidle : Model.Unbiased s r.fireBus :=
    ⟨rfl, rfl, rfl, by simp [Engine.State.biFlipNow, h.quiescent.handshake]⟩
  have hnone : s.pendingValid = true → s.engine.bias s.reqAddr = false := by
    intro hp
    rw [h.quiescent.pending] at hp
    cases hp
  refine ⟨⟨queued_edge h.quiescent.pending hl, ?_, edge_offer rfl h.offer⟩,
    biState_edge_idle rfl h.quiescent.handshake hnone,
    flushState_edge_idle_of rfl h.quiescent.eviction (Or.inr h.quiescent.pending), ?_⟩
  · intro g
    rw [Bool.eq_false_iff, ne_eq, Shim.State.edge_engine rfl]
    intro hg
    rcases (slotNext_valid_iff h.offer g).mp hg with ⟨ha, _⟩ | ⟨hv, _⟩
    · rw [h.not_accept] at ha
      cases ha
    · rw [h.quiescent.slots] at hv
      cases hv
  · rw [Model.ofShim_idle hidle h.not_flush h.not_accept, h.model]

/-- The cycles from the one after `REQ_FIRE` to the response. -/
def Model.serviceTime (m : Model q.engine) (r : Request) : ℕ :=
  m.latency r + if m.Evicts (r.addrBits q) then 4 else 2

/-- A fired request to a Device-Biased address is in service. -/
theorem Fired.serving (h : Fired r m s) (hbias : m.bias (r.addrBits q) = false) :
    Serving r (m.answer (r.addrBits q)) (m.access (r.access q)) (m.latency r)
      (m.serviceTime r) s := by
  have hwait : Waiting r (m.answer (r.addrBits q)) (m.access (r.access q)) (m.latency r) s := by
    refine ⟨h.toPending, h.handshake, ?_, ?_, ?_, ?_⟩
    · rw [← h.model] at hbias
      exact hbias
    all_goals rw [h.model]
  rw [Model.serviceTime]
  split
  case isTrue he => exact Serving.evict hwait h.eviction (by rwa [h.model])
  case isFalse he => exact Serving.ready hwait h.eviction (by rwa [h.model])

/-- The acknowledge of the shown response leaves a shim at rest. -/
theorem Accepted.rest_of_ack {d : q.engine.Data} (h : Accepted r d m s)
    (ha : s.engine.respActive = true) (hack : b.writes Shim.addrRespAck = true)
    (hrst : b.rstn = true) : Rest m (s.edge b) := by
  have hconsume : s.engine.respConsumedThisCycle (s.engineInputs b) = true := by
    rw [Engine.State.respConsumedThisCycle, ha]
    exact hack
  have htag : s.engine.respTag = r.tagBits q := (h.slots _).mp (h.offer.consumed hconsume).1
  have hno : ∀ a, a ≠ Shim.addrRespAck → b.writes a = false := by
    intro a hne
    exact Shim.Bus.writes_eq_false hack hne.symm
  have haccept := Shim.State.accepting_of_not_pending (b := b) h.pending
  have hfire : b.writeFire = false := hno _ (by decide)
  have hidle : Model.Unbiased s b :=
    ⟨hrst, hno _ (by decide), hno _ (by decide), by simp [Engine.State.biFlipNow, h.handshake]⟩
  have hnone : s.pendingValid = true → s.engine.bias s.reqAddr = false := by
    intro hp
    rw [h.pending] at hp
    cases hp
  refine ⟨⟨?_, biState_edge_idle hrst h.handshake hnone,
    flushState_edge_idle_of hrst h.eviction (Or.inr h.pending), ?_⟩, edge_offer hrst h.offer, ?_⟩
  · simp [Shim.State.edge, Shim.State.pendingValidNext, h.pending, hfire]
  · intro g
    rw [Bool.eq_false_iff, ne_eq, Shim.State.edge_engine hrst]
    intro hg
    rcases (slotNext_valid_iff h.offer g).mp hg with ⟨hacc, _⟩ | ⟨hv, hkeep⟩
    · rw [← Shim.State.accepting_eq, haccept] at hacc
      cases hacc
    · exact hkeep ⟨hconsume, htag.trans ((h.slots g).mp hv).symm⟩
  · rw [Model.ofShim_idle hidle (not_flush_of_idle h.eviction) haccept, h.model]

end Firing

section ResponseTime

variable {x : Shim.Undefined q} {bus : ℕ → Shim.Bus} {t T : ℕ} {r : Request}

theorem rest_of_quiescent (h : (Shim.run x bus t).Quiescent) :
    Rest (Model.ofShim (Shim.run x bus t)) (Shim.run x bus t) :=
  ⟨h, Shim.run_engine_offerReady x bus t, rfl⟩

/-- What `STATUS`, `RESP_TAG` and `RESP_RDATA` show of a finished request. -/
structure Shows (r : Request) (d : q.engine.Data) (s : Shim.State q) : Prop where
  isData : (s.readReg Shim.addrStatus).getLsbD 1 = !r.isWrite
  tag : s.readReg Shim.addrRespTag = (r.tagBits q).setWidth 32
  rdata : r.isWrite = false → s.readReg Shim.addrRespRdata = d.setWidth 32

theorem Accepted.shows {d : q.engine.Data} {m : Model q.engine} {s : Shim.State q}
    (h : Accepted r d m s) (ha : s.engine.respActive = true) : Shows r d s := by
  have htag : s.engine.respTag = r.tagBits q :=
    (h.slots _).mp (eligible_iff.mp (h.offer ha)).1
  constructor
  · rw [Shim.State.status_isData, Engine.State.s2mIsData, htag, h.isWrite]
  · rw [← htag]
    rfl
  · intro hr
    rw [← h.rdata hr, ← htag]
    rfl

/-- The service of a fired request, cycle by cycle. -/
theorem serving_of_fire (hq : (Shim.run x bus t).Quiescent) (hl : Loaded r (Shim.run x bus t))
    (hbias : (Shim.run x bus t).engine.bias (r.addrBits q) = false) (hfire : bus t = r.fireBus)
    {n : ℕ} (hb : ∀ u, t < u → u ≤ t + 1 + n → Undisturbing (bus u)) :
    Serving r ((Model.ofShim (Shim.run x bus t)).answer (r.addrBits q))
      ((Model.ofShim (Shim.run x bus t)).access (r.access q))
      ((Model.ofShim (Shim.run x bus t)).latency r)
      ((Model.ofShim (Shim.run x bus t)).serviceTime r - n) (Shim.run x bus (t + 1 + n)) := by
  induction n with
  | zero =>
      have hrst : (bus t).rstn = true := by rw [hfire]; rfl
      have hfired := fired_edge (rest_of_quiescent hq) hl
      rw [← hfire, ← Shim.run_succ_of_rstn hrst (hb (t + 1) (by omega) (by omega)).rstn] at hfired
      exact hfired.serving hbias
  | succ n ih =>
      have hn := hb (t + 1 + n) (by omega) (by omega)
      have hn' := hb (t + 1 + n + 1) (by omega) (by omega)
      have hprev := (ih fun u h₁ h₂ => hb u h₁ (by omega)).edge hn
      rw [← Shim.run_succ_of_rstn hn.rstn hn'.rstn, Nat.sub_sub] at hprev
      exact hprev

/-- A latched request that is fired at a resting shim for a Device-Biased address is
answered after a number of cycles that its kind decides, as long as no reset and no
write to a register that it depends on disturbs it: the response is shown from the
third cycle after `REQ_FIRE` on, three cycles later for a read that its line does
not serve, and two more when a dirty victim has to be written back. It carries
the tag of the request, and the data of its line or of the backing memory. -/
theorem response_time (hq : (Shim.run x bus t).Quiescent) (hl : Loaded r (Shim.run x bus t))
    (hbias : (Shim.run x bus t).engine.bias (r.addrBits q) = false) (hfire : bus t = r.fireBus)
    (hb : ∀ u, t < u → u ≤ T → Undisturbing (bus u)) :
    ∀ u, t < u → u ≤ T →
      (((Shim.run x bus u).readReg Shim.addrStatus).getLsbD 0 = true ↔
        t + 3 + (if r.isWrite = true ∨ (Model.ofShim (Shim.run x bus t)).Hit (r.addrBits q) then 0
          else 3) +
          (if (Model.ofShim (Shim.run x bus t)).Evicts (r.addrBits q) then 2 else 0) ≤ u) ∧
      (((Shim.run x bus u).readReg Shim.addrStatus).getLsbD 0 = true →
        Shows r ((Model.ofShim (Shim.run x bus t)).answer (r.addrBits q)) (Shim.run x bus u)) := by
  intro u htu huT
  obtain ⟨n, rfl⟩ := Nat.exists_eq_add_of_le (Nat.succ_le_of_lt htu)
  have hserve := serving_of_fire hq hl hbias hfire fun w h₁ h₂ => hb w h₁ (h₂.trans huT)
  rw [Shim.State.status_valid]
  have hactive := hserve.respActive_iff
  constructor
  · refine hactive.trans ?_
    rw [Model.serviceTime, Model.latency]
    change (if _ then 0 else 3) + _ - n = 0 ↔ _
    split <;> split <;> omega
  · intro hv
    rw [hactive.mp hv] at hserve
    obtain ⟨haccepted, ha⟩ := hserve.accepted
    exact haccepted.shows ha

end ResponseTime

section Demonstration

open Shim

/-- A read of address 64 with tag 2, fired at power-on. -/
def firstRead : Request := ⟨false, 64, 2, 0⟩

def firstReadBus : ℕ → Bus := script [(addrReqAddr, 64), (addrReqFire, 32)]

theorem quiescent_firstRead : (Shim.run powerOnZero firstReadBus 1).Quiescent := by
  have hzero : (powerOn powerOnZero).Quiescent := ⟨rfl, rfl, rfl, fun _ => rfl⟩
  have hoffer : (powerOn powerOnZero).engine.OfferReady := by
    intro h
    cases h
  exact hzero.edge hoffer (b := firstReadBus 0) rfl rfl

/-- The first read misses, and its response is shown in cycle 7. -/
theorem response_time_firstRead :
    ((Shim.run powerOnZero firstReadBus 7).readReg addrStatus).getLsbD 0 = true := by
  have hquiet : ∀ u, 1 < u → u ≤ 7 → Undisturbing (firstReadBus u) := by
    intro u hu _
    rw [firstReadBus, script_of_length_le (Nat.succ_le_of_lt hu)]
    exact undisturbing_of_no_write rfl rfl
  exact (response_time quiescent_firstRead ⟨rfl, fun h => by cases h⟩ rfl
    (r := firstRead) rfl hquiet 7 (by decide) le_rfl).1.mpr (by decide)

end Demonstration

end CxlLite.Hps
