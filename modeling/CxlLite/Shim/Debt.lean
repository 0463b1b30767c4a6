import CxlLite.Engine.BackInvalidate
import CxlLite.Engine.Memory
import CxlLite.Engine.Progress
import CxlLite.Shim.Run

/-!
# What the shim still owes

The debt of a state adds up the pending request, the phases of a
Back-Invalidate handshake, the steps of an eviction and the response path.
While no bus write changes the request or its line, every cycle pays what it does.
-/

namespace CxlLite.Shim

open Engine Synchronous

variable {q : ShimParams}

namespace State

section Definitions

variable (s : State q) (b : Bus)

/-- The bus changes nothing that the pending request depends on, and brings no
new request. -/
structure Holding : Prop where
  rstn : b.rstn = true
  addr : b.writes addrReqAddr = false
  bias : b.writeBias = false
  bypass : b.writeBypass = false
  fire : b.writeFire = true → s.pendingValid = true

/-- The pending request asks for a Host-Biased address. -/
def asksHostBiased : Bool := s.pendingValid && s.engine.bias s.reqAddr

/-- The pending request has to evict a dirty line first. -/
def asksEviction : Bool :=
  s.pendingValid && s.engine.needEvictWriteback (s.engineInputs Bus.idle)

def pendingDebt : ℕ := if s.pendingValid then q.engine.readExtraLatency + 3 else 0

def biDebt : ℕ :=
  match s.engine.biState with
  | .idle => if s.asksHostBiased then 3 else 0
  | .req => 2
  | .waitRsp => 1

def flushDebt : ℕ :=
  match s.engine.flushState with
  | .idle => if s.asksEviction then 2 else 0
  | .active => 1

def debt : ℕ := s.engine.responseDebt + s.pendingDebt + s.biDebt + s.flushDebt

/-- The pending request is accepted in this cycle. -/
def accepting : Bool := s.pendingValid && s.m2sReady b

/-- The sequencer moves in this cycle. -/
def biWork : Bool :=
  match s.engine.biState with
  | .idle => s.asksHostBiased
  | .req => b.writeBiAck
  | .waitRsp => b.writeBiRsp

/-- The eviction moves in this cycle. -/
def flushWork : Bool :=
  s.engine.doFlushWriteThisCycle || s.engine.wantFlush (s.engineInputs b)

def work : ℕ :=
  s.engine.responseWork (s.engineInputs b) + (s.accepting b).toNat + (s.biWork b).toNat +
    (s.flushWork b).toNat

/-- Nothing moves in this cycle. -/
structure NoWork : Prop where
  counting : s.engine.counting = 0
  offers : s.engine.offers = false
  consumed : s.engine.respConsumedThisCycle (s.engineInputs b) = false
  accepting : s.accepting b = false
  handshake : s.biWork b = false
  eviction : s.flushWork b = false

end Definitions

section Edge

variable {s : State q} {b : Bus}

theorem asksEviction_eq (b : Bus) :
    s.asksEviction = (s.pendingValid && s.engine.needEvictWriteback (s.engineInputs b)) := rfl

theorem accepting_eq : s.accepting b = s.engine.acceptThisCycle (s.engineInputs b) := rfl

theorem accepting_of_not_pending (h : s.pendingValid = false) : s.accepting b = false := by
  rw [accepting, h, Bool.false_and]

theorem Holding.reqAddr (h : s.Holding b) : (s.edge b).reqAddr = s.reqAddr := by
  simp [edge, reqAddrNext, h.addr]

theorem Holding.cacheBypassEn (h : s.Holding b) :
    (s.edge b).cacheBypassEn = s.cacheBypassEn := by
  simp [edge, cacheBypassEnNext, h.bypass]

theorem Holding.engine (h : s.Holding b) :
    (s.edge b).engine = s.engine.edge (s.engineInputs b) :=
  edge_engine h.rstn

theorem Holding.pendingValid (h : s.Holding b) :
    (s.edge b).pendingValid = (s.pendingValid && !s.m2sReady b) := by
  have hfire := h.fire
  simp only [edge, pendingValidNext]
  cases hp : s.pendingValid <;> cases hw : b.writeFire <;> cases s.m2sReady b <;>
    simp_all

theorem pendingDebt_edge (h : s.Holding b) :
    (s.edge b).pendingDebt + (if s.accepting b then q.engine.readExtraLatency + 3 else 0) =
      s.pendingDebt := by
  rw [pendingDebt, pendingDebt, accepting, h.pendingValid]
  cases s.pendingValid <;> cases s.m2sReady b <;> rfl

/-- Without a debug write the bias table changes by the flip only. -/
theorem bias_edge (h : s.Holding b) :
    (s.edge b).engine.bias =
      if s.engine.biFlipNow (s.engineInputs b) then
        Function.update s.engine.bias s.reqAddr false
      else s.engine.bias := by
  rw [h.engine]
  have hen : (s.engineInputs b).biasWrEn = false := h.bias
  change s.engine.biasNext (s.engineInputs b) = _
  split
  case isTrue hf => exact biasNext_of_flip hf
  case isFalse hf => rw [biasNext_of_not_flip (Bool.eq_false_iff.mpr hf), hen]; rfl

theorem biState_edge (h : s.Holding b) :
    (s.edge b).engine.biState = s.engine.biStateNext (s.engineInputs b) := by
  rw [h.engine]
  rfl

theorem wantBi_of_idle (h : s.engine.biState = .idle) :
    s.engine.wantBi (s.engineInputs b) = s.asksHostBiased := by
  simp only [Engine.State.wantBi, h]
  rfl

theorem biDebt_edge (h : s.Holding b) : (s.edge b).biDebt + (s.biWork b).toNat ≤ s.biDebt := by
  simp only [biDebt, biWork]
  rw [biState_edge h, asksHostBiased, h.pendingValid, h.reqAddr, bias_edge h]
  cases hs : s.engine.biState with
  | idle =>
      simp only [Engine.State.biStateNext, Engine.State.biFlipNow, hs, wantBi_of_idle hs]
      cases ha : s.asksHostBiased with
      | true => exact le_refl 3
      | false =>
          rw [asksHostBiased] at ha
          cases hp : s.pendingValid <;> simp_all
  | req =>
      have hack : (s.engineInputs b).biReqReady = b.writeBiAck := rfl
      simp only [Engine.State.biStateNext, Engine.State.biReqValid, hs]
      cases hb : b.writeBiAck <;> simp [hack, hb]
  | waitRsp =>
      have hrsp : (s.engineInputs b).biRspValid = b.writeBiRsp := rfl
      simp only [Engine.State.biStateNext, Engine.State.biFlipNow, hs, hrsp]
      cases hb : b.writeBiRsp <;> simp

theorem flushState_edge (h : s.Holding b) :
    (s.edge b).engine.flushState = s.engine.flushStateNext (s.engineInputs b) := by
  rw [h.engine]
  rfl

/-- An idle eviction leaves the lines alone until the request is accepted. -/
theorem cache_edge (h : s.Holding b) (hf : s.engine.doFlushWriteThisCycle = false)
    (ha : s.accepting b = false) : (s.edge b).engine.cache = s.engine.cache := by
  rw [h.engine]
  exact (storage_of_idle hf (accepting_eq.symm.trans ha)).1

/-- After its writeback the line of the request is clean. -/
theorem asksEviction_of_flush (h : s.Holding b) (hf : s.engine.doFlushWriteThisCycle = true) :
    (s.edge b).asksEviction = false := by
  have hcache : (s.edge b).engine.cache = s.engine.cacheNext (s.engineInputs b) := by
    rw [h.engine]
    rfl
  have haddr := h.reqAddr
  simp only [asksEviction, Engine.State.needEvictWriteback, hcache, cacheNext_of_flush hf]
  simp [engineInputs, haddr]

/-- A waiting request does not come to need an eviction. -/
theorem asksEviction_of_edge (h : s.Holding b) (hf : s.engine.doFlushWriteThisCycle = false)
    (hasks : (s.edge b).asksEviction = true) : s.asksEviction = true := by
  rw [asksEviction_eq b, h.pendingValid] at hasks
  simp only [Bool.and_eq_true, Bool.not_eq_true'] at hasks
  obtain ⟨⟨hp, hready⟩, hneed⟩ := hasks
  have hcache := cache_edge h hf (by simp [accepting, hready])
  rw [asksEviction_eq b, hp, Bool.true_and, ← hneed]
  simp only [Engine.State.needEvictWriteback, engineInputs, hcache, h.reqAddr,
    h.cacheBypassEn, Engine.State.cacheHit]

theorem asksEviction_of_wantFlush (h : s.engine.wantFlush (s.engineInputs b) = true) :
    s.asksEviction = true := by
  obtain ⟨_, _, _, hvalid, hneed⟩ := wantFlush_iff.mp h
  rw [asksEviction_eq b, Bool.and_eq_true]
  exact ⟨hvalid, hneed⟩

theorem flushDebt_edge (h : s.Holding b) :
    (s.edge b).flushDebt + (s.flushWork b).toNat ≤ s.flushDebt := by
  simp only [flushDebt, flushWork]
  rw [flushState_edge h]
  cases hs : s.engine.flushState with
  | active =>
      have hflush : s.engine.doFlushWriteThisCycle = true := flush_iff.mpr hs
      simp [Engine.State.flushStateNext, hs, asksEviction_of_flush h hflush, hflush]
  | idle =>
      have hflush : s.engine.doFlushWriteThisCycle = false := not_flush_of_idle hs
      cases hw : s.engine.wantFlush (s.engineInputs b) with
      | true =>
          simp [Engine.State.flushStateNext, hs, hw, asksEviction_of_wantFlush hw, hflush]
      | false =>
          simp only [Engine.State.flushStateNext, hs, hw, hflush]
          cases ha : (s.edge b).asksEviction with
          | false => simp
          | true => simp [asksEviction_of_edge h hflush ha]

/-- Every cycle pays its work off the debt. -/
theorem debt_edge (hr : s.engine.OfferReady) (h : s.Holding b) :
    (s.edge b).debt + s.work b ≤ s.debt := by
  have hresp : (s.edge b).engine.responseDebt + s.engine.responseWork (s.engineInputs b) ≤
      s.engine.responseDebt +
        (if s.accepting b then q.engine.readExtraLatency + 2 else 0) := by
    rw [h.engine]
    exact Engine.State.responseDebt_edge hr
  have hpend := pendingDebt_edge h
  have hbi := biDebt_edge h
  have hflush := flushDebt_edge h
  simp only [debt, work]
  cases ha : s.accepting b <;> simp only [ha, Bool.toNat_true, Bool.toNat_false, if_true,
    Bool.false_eq_true, if_false] at hresp hpend ⊢ <;> omega

theorem noWork_of_work (h : s.work b = 0) : s.NoWork b := by
  simp only [work, Engine.State.responseWork, Nat.add_eq_zero_iff, Bool.toNat_eq_zero] at h
  obtain ⟨⟨⟨⟨⟨hcount, hoffers⟩, hconsumed⟩, hacc⟩, hbi⟩, hflush⟩ := h
  exact ⟨hcount, hoffers, hconsumed, hacc, hbi, hflush⟩

theorem flushState_of_not_flush (h : s.engine.doFlushWriteThisCycle = false) :
    s.engine.flushState = .idle := by
  cases hf : s.engine.flushState with
  | idle => rfl
  | active =>
      rw [flush_iff.mpr hf] at h
      cases h

/-- When a request waits and nothing moves, the sequencer waits for the host or
the tag of the request is outstanding. -/
theorem slot_busy_of_no_work (h : s.NoWork b) (hp : s.pendingValid = true)
    (hidle : s.engine.biState = .idle) : (s.engine.slot s.pendingTag).valid = true := by
  have hacc := h.accepting
  have hbias : s.engine.bias s.reqAddr = false := by
    simpa [biWork, hidle, asksHostBiased, hp] using h.handshake
  obtain ⟨hactive, hwant⟩ := Bool.or_eq_false_iff.mp h.eviction
  have hfidle := flushState_of_not_flush hactive
  have hneed : s.engine.needEvictWriteback (s.engineInputs b) = false := by
    have hvalid : (s.engineInputs b).m2sValid = true := hp
    have hquery : s.engine.biasQueryRdData (s.engineInputs b) = false := hbias
    simpa [Engine.State.wantFlush, hfidle, hidle, hvalid, hquery] using hwant
  by_contra hslot
  rw [Bool.not_eq_true] at hslot
  have haccept : s.engine.acceptThisCycle (s.engineInputs b) = true :=
    accept_iff.mpr ⟨hp, hslot, hidle, hbias, hfidle, hneed⟩
  rw [accepting_eq, haccept] at hacc
  cases hacc

end Edge

end State

section Runs

variable {x : Undefined q} {bus : ℕ → Bus} {t : ℕ}

theorem run_engine_offerReady (x : Undefined q) (bus : ℕ → Bus) (t : ℕ) :
    (run x bus t).engine.OfferReady := by
  rw [run_engine]
  exact run_offerReady _ t

/-- Every cycle of a run pays its work off the debt. -/
theorem run_debt_succ (h : (run x bus t).Holding (bus t)) (h₁ : (bus (t + 1)).rstn = true) :
    (run x bus (t + 1)).debt + (run x bus t).work (bus t) ≤ (run x bus t).debt := by
  rw [run_succ_of_rstn h.rstn h₁]
  exact State.debt_edge (run_engine_offerReady x bus t) h

end Runs

end CxlLite.Shim
