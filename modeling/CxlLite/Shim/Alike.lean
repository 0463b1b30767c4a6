import CxlLite.Shim.Registers

/-!
# What can be observed

Two shims are alike if they differ only in registers that no bus cycle can bring to
light: the content of free slots, the read data of a write, the tag of a response that
is not shown, and the pending request when there is none. Alike shims stay alike.
-/

namespace CxlLite

namespace Engine

open Synchronous

variable {p : Params}

/-- The slots agree, as far as a response can tell. -/
structure Slot.Alike (σ σ' : Slot p) : Prop where
  valid : σ.valid = σ'.valid
  isWrite : σ.valid = true → σ.isWrite = σ'.isWrite
  cnt : σ.valid = true → σ.cnt = σ'.cnt
  rdata : σ.valid = true → σ.isWrite = false → σ.rdata = σ'.rdata

/-- The engines agree, as far as their outputs can tell. -/
structure State.Alike (s s' : State p) : Prop where
  biState : s.biState = s'.biState
  bias : s.bias = s'.bias
  flushState : s.flushState = s'.flushState
  cache : s.cache = s'.cache
  mem : s.mem = s'.mem
  slot : ∀ g, (s.slot g).Alike (s'.slot g)
  respActive : s.respActive = s'.respActive
  respTag : s.respActive = true → s.respTag = s'.respTag
  dbgCacheHits : s.dbgCacheHits = s'.dbgCacheHits
  dbgCacheMisses : s.dbgCacheMisses = s'.dbgCacheMisses

section Cycle

variable {s s' : State p} {i : Inputs p}

theorem State.Alike.eligible (h : s.Alike s') : s.eligible = s'.eligible := by
  funext g
  have hg := h.slot g
  rw [State.eligible, State.eligible, ← hg.valid]
  cases hv : (s.slot g).valid with
  | false => rfl
  | true => rw [hg.cnt hv]

theorem State.Alike.arb (h : s.Alike s') : s.arb = s'.arb := by
  rw [State.arb, State.arb, h.eligible]

/-- A cycle without a request does not look at its payload. -/
theorem edge_of_invalid (hv : i.m2sValid = false) (w : Bool) (g : p.Tag) :
    s.edge { i with m2sIsWrite := w, m2sTag := g } = s.edge i := by
  have hno : s.acceptThisCycle i = false := by simp [State.acceptThisCycle, hv]
  have hno' : s.acceptThisCycle { i with m2sIsWrite := w, m2sTag := g } = false := by
    simp [State.acceptThisCycle, hv]
  have hslot : s.slotNext { i with m2sIsWrite := w, m2sTag := g } = s.slotNext i := by
    funext t
    simp only [State.slotNext, hno, hno', Bool.false_and, Bool.false_eq_true, if_false]
    rfl
  simp only [State.edge, hslot, State.cacheNext, State.memNext, State.dbgCacheHitsNext,
    State.dbgCacheMissesNext, hno, hno', Bool.false_and, Bool.false_eq_true, if_false]
  rfl

/-- The same request meets the same resistance. -/
theorem State.Alike.accept (h : s.Alike s') (i : Inputs p) :
    s.acceptThisCycle i = s'.acceptThisCycle i := by
  simp only [State.acceptThisCycle, State.m2sReady, State.biasQueryRdData, State.needEvictWriteback,
    State.cacheHit, (h.slot i.m2sTag).valid, h.biState, h.bias, h.flushState, h.cache]

theorem State.Alike.hit (h : s.Alike s') (i : Inputs p) : s.cacheHitEff i = s'.cacheHitEff i := by
  simp only [State.cacheHitEff, State.cacheHit, h.cache]

theorem State.Alike.consumed (h : s.Alike s') (i : Inputs p) :
    s.respConsumedThisCycle i = s'.respConsumedThisCycle i := by
  simp only [State.respConsumedThisCycle, h.respActive]

/-- A slot that is filled anew forgets what it held, but for the read data of a write. -/
theorem State.Alike.acceptSlot (h : s.Alike s') (i : Inputs p) (σ σ' : Slot p) :
    (s.acceptSlot i σ).Alike (s'.acceptSlot i σ') := by
  refine ⟨rfl, fun _ => rfl, fun _ => ?_, fun _ hr => ?_⟩
  · simp only [State.acceptSlot, h.hit]
  · have hread : i.m2sIsWrite = false := hr
    simp only [State.acceptSlot, State.readCapture, hread, h.hit, h.cache, h.mem, Bool.not_false,
      if_true]

theorem State.Alike.slotNext (h : s.Alike s') (i : Inputs p) (g : p.Tag) :
    (s.slotNext i g).Alike (s'.slotNext i g) := by
  have hg := h.slot g
  have hconsumes : (s.respConsumedThisCycle i && s.respTag == g) =
      (s'.respConsumedThisCycle i && s'.respTag == g) := by
    rw [← h.consumed]
    cases hc : s.respConsumedThisCycle i with
    | false => rfl
    | true => rw [h.respTag (Bool.and_eq_true_iff.mp hc).1]
  rw [State.slotNext, State.slotNext, ← h.accept, ← hconsumes]
  split
  · exact h.acceptSlot i _ _
  split
  · exact ⟨rfl, fun hv => (by cases hv), fun hv => (by cases hv), fun hv => (by cases hv)⟩
  cases hv : (s.slot g).valid with
  | false =>
      have hv' : (s'.slot g).valid = false := hg.valid.symm.trans hv
      simpa only [hv', Bool.false_and, Bool.false_eq_true, if_false] using hg
  | true =>
      have hv' : (s'.slot g).valid = true := hg.valid.symm.trans hv
      rw [hv', hg.cnt hv]
      split
      · exact ⟨hg.valid, hg.isWrite, fun _ => rfl, hg.rdata⟩
      · exact hg

/-- Alike engines stay alike under the same inputs. -/
theorem State.Alike.edge (h : s.Alike s') (i : Inputs p) : (s.edge i).Alike (s'.edge i) where
  biState := by
    simp only [State.edge, State.biStateNext, State.wantBi, State.biReqValid,
      State.biasQueryRdData, h.biState, h.bias]
    rfl
  bias := by
    simp only [State.edge, State.biasNext, State.biFlipNow, h.biState, h.bias]
    rfl
  flushState := by
    simp only [State.edge, State.flushStateNext, State.wantFlush, State.needEvictWriteback,
      State.cacheHit, State.biasQueryRdData, h.flushState, h.biState, h.bias, h.cache]
    rfl
  cache := by
    simp only [State.edge, State.cacheNext, State.doFlushWriteThisCycle, State.acceptLine,
      State.cacheHit, h.flushState, h.accept, h.cache, h.mem]
    rfl
  mem := by
    simp only [State.edge, State.memNext, State.doFlushWriteThisCycle, State.flushAddr,
      h.flushState, h.accept, h.cache, h.mem]
    rfl
  slot := h.slotNext i
  respActive := by
    simp only [State.edge, State.respActiveNext, h.respActive, h.arb]
  respTag := by
    intro hactive
    simp only [State.edge, State.respActiveNext] at hactive
    simp only [State.edge, State.respTagNext, ← h.respActive, ← h.arb]
    cases ha : s.respActive with
    | true => simpa using h.respTag ha
    | false =>
        have hfound : s.arb.1 = true := by simpa [ha] using hactive
        simp [hfound]
  dbgCacheHits := by
    simp only [State.edge, State.dbgCacheHitsNext, h.accept, h.hit, h.dbgCacheHits]
  dbgCacheMisses := by
    simp only [State.edge, State.dbgCacheMissesNext, h.accept, h.hit, h.dbgCacheMisses]

theorem State.Alike.reset (h : s.Alike s') : s.reset.Alike s'.reset :=
  ⟨rfl, rfl, rfl, h.cache, h.mem, h.slot, rfl, fun _ => rfl, rfl, rfl⟩

end Cycle

end Engine

namespace Shim

open Engine Synchronous

variable {q : ShimParams}

section Relations

/-- The shims agree, as far as software can tell. -/
structure State.Alike (s s' : State q) : Prop where
  reqAddr : s.reqAddr = s'.reqAddr
  reqWdata : s.reqWdata = s'.reqWdata
  biasAddr : s.biasAddr = s'.biasAddr
  cacheBypassEn : s.cacheBypassEn = s'.cacheBypassEn
  pendingValid : s.pendingValid = s'.pendingValid
  pendingIsWrite : s.pendingValid = true → s.pendingIsWrite = s'.pendingIsWrite
  pendingTag : s.pendingValid = true → s.pendingTag = s'.pendingTag
  engine : s.engine.Alike s'.engine

/-- What software can see of the shims is the same: the response registers count only
while a response is shown, and `RESP_RDATA` only for a read. -/
structure State.LooksLike (s s' : State q) : Prop where
  valid : (s.readReg addrStatus).getLsbD 0 = (s'.readReg addrStatus).getLsbD 0
  status : (s.readReg addrStatus).getLsbD 0 = true → s.readReg addrStatus = s'.readReg addrStatus
  tag : (s.readReg addrStatus).getLsbD 0 = true → s.readReg addrRespTag = s'.readReg addrRespTag
  rdata : (s.readReg addrStatus).getLsbD 0 = true → (s.readReg addrStatus).getLsbD 1 = true →
    s.readReg addrRespRdata = s'.readReg addrRespRdata
  others : ∀ r, r ≠ addrStatus → r ≠ addrRespTag → r ≠ addrRespRdata → s.readReg r = s'.readReg r
  waits : ∀ b, s.avsWaitrequest b = s'.avsWaitrequest b

/-- The states agree but for the pending request, when there is none. -/
def State.SameButPending (s s' : State q) : Prop :=
  s' = s ∨ s.pendingValid = false ∧ ∃ w g, s' = { s with pendingIsWrite := w, pendingTag := g }

end Relations

section Cycle

variable {s s' : State q} {b : Bus}

/-- The engine of a shim moves as if it had the payload of the other. -/
theorem edge_payload (h : s.pendingValid = true → s.pendingIsWrite = s'.pendingIsWrite ∧
      s.pendingTag = s'.pendingTag) (e : Engine.State q.engine) :
    e.edge { s.engineInputs b with
      m2sIsWrite := s'.pendingIsWrite, m2sTag := s'.pendingTag } = e.edge (s.engineInputs b) := by
  cases hp : s.pendingValid with
  | false => exact edge_of_invalid hp _ _
  | true =>
      obtain ⟨hw, hg⟩ := h hp
      rw [← hw, ← hg]
      rfl

theorem State.Alike.engineInputs (h : s.Alike s') :
    s'.engineInputs b = { s.engineInputs b with
      m2sIsWrite := s'.pendingIsWrite, m2sTag := s'.pendingTag } := by
  simp only [State.engineInputs, h.reqAddr, h.reqWdata, h.biasAddr, h.cacheBypassEn,
    h.pendingValid]

theorem State.Alike.accepts (h : s.Alike s') :
    (s.pendingValid && s.m2sReady b) = (s'.pendingValid && s'.m2sReady b) := by
  have haccept := h.engine.accept (s.engineInputs b)
  cases hp : s.pendingValid with
  | false =>
      rw [← h.pendingValid, hp]
      rfl
  | true =>
      have hinputs : s'.engineInputs b = s.engineInputs b := by
        rw [h.engineInputs, ← h.pendingIsWrite hp, ← h.pendingTag hp]
        rfl
      have hvalid : (s.engineInputs b).m2sValid = true := hp
      rw [Engine.State.acceptThisCycle, Engine.State.acceptThisCycle, hvalid] at haccept
      rw [State.m2sReady, State.m2sReady, hinputs, ← h.pendingValid, hp]
      exact haccept

/-- A request that is pending was pending before or has just been fired. -/
theorem pending_of_next (h : s.pendingValidNext b = true)
    (hfire : ¬ (b.writeFire && !s.pendingValid) = true) : s.pendingValid = true := by
  rw [State.pendingValidNext, if_neg hfire] at h
  cases hp : s.pendingValid with
  | true => rfl
  | false =>
      rw [hp] at h
      cases h

theorem State.Alike.edge (h : s.Alike s') (hrst : b.rstn = true) :
    (s.edge b).Alike (s'.edge b) where
  reqAddr := by simp only [State.edge, State.reqAddrNext, h.reqAddr]
  reqWdata := by simp only [State.edge, State.reqWdataNext, h.reqWdata]
  biasAddr := by simp only [State.edge, State.biasAddrNext, h.biasAddr]
  cacheBypassEn := by simp only [State.edge, State.cacheBypassEnNext, h.cacheBypassEn]
  pendingValid := by
    change s.pendingValidNext b = s'.pendingValidNext b
    rw [State.pendingValidNext, State.pendingValidNext, h.accepts, h.pendingValid]
  pendingIsWrite := by
    intro hp
    change s.pendingIsWriteNext b = s'.pendingIsWriteNext b
    rw [State.pendingIsWriteNext, State.pendingIsWriteNext, ← h.pendingValid]
    split
    case isTrue => rfl
    case isFalse hfire => exact h.pendingIsWrite (pending_of_next hp hfire)
  pendingTag := by
    intro hp
    change s.pendingTagNext b = s'.pendingTagNext b
    rw [State.pendingTagNext, State.pendingTagNext, ← h.pendingValid]
    split
    case isTrue => rfl
    case isFalse hfire => exact h.pendingTag (pending_of_next hp hfire)
  engine := by
    rw [State.edge_engine hrst, State.edge_engine hrst, h.engineInputs, edge_payload]
    · exact h.engine.edge _
    · exact fun hp => ⟨h.pendingIsWrite hp, h.pendingTag hp⟩

theorem State.alike_reset (h : s.engine.Alike s'.engine) : s.reset.Alike s'.reset where
  reqAddr := rfl
  reqWdata := rfl
  biasAddr := rfl
  cacheBypassEn := rfl
  pendingValid := rfl
  pendingIsWrite hp := by cases hp
  pendingTag hp := by cases hp
  engine := h.reset

theorem State.Alike.settle (h : s.Alike s') : (s.settle b).Alike (s'.settle b) := by
  rw [State.settle, State.settle]
  split
  · exact h
  · exact State.alike_reset h.engine

theorem State.Alike.step (h : s.Alike s') : (s.step b).Alike (s'.step b) := by
  cases hrst : b.rstn with
  | true =>
      rw [State.step_of_rstn hrst, State.step_of_rstn hrst]
      exact h.edge hrst
  | false =>
      rw [State.step_of_reset hrst, State.step_of_reset hrst]
      apply State.alike_reset
      change (s.engine.edge (s.engineInputs b)).Alike (s'.engine.edge (s'.engineInputs b))
      rw [h.engineInputs, edge_payload fun hp => ⟨h.pendingIsWrite hp, h.pendingTag hp⟩]
      exact h.engine.edge _

/-- Alike shims look alike. -/
theorem State.Alike.looksLike (h : s.Alike s') (ho : s.engine.OfferReady) : s.LooksLike s' := by
  have hactive : s.engine.s2mValid = s'.engine.s2mValid := h.engine.respActive
  have hshown : s.engine.s2mValid = true → s.engine.respTag = s'.engine.respTag ∧
      (s.engine.slot s.engine.respTag).valid = true := by
    intro hv
    exact ⟨h.engine.respTag hv, (eligible_iff.mp (ho hv)).1⟩
  constructor
  · rw [State.status_valid, State.status_valid, hactive]
  · intro hv
    rw [State.status_valid] at hv
    obtain ⟨htag, hslot⟩ := hshown hv
    rw [State.readReg_status, State.readReg_status, hactive, Engine.State.s2mIsData,
      Engine.State.s2mIsData, ← htag, (h.engine.slot _).isWrite hslot]
  · intro hv
    rw [State.status_valid] at hv
    change s.engine.respTag.setWidth 32 = s'.engine.respTag.setWidth 32
    rw [(hshown hv).1]
  · intro hv hd
    rw [State.status_valid] at hv
    obtain ⟨htag, hslot⟩ := hshown hv
    have hread : (s.engine.slot s.engine.respTag).isWrite = false := by
      rw [State.status_isData] at hd
      exact Bool.not_eq_true' _ ▸ hd
    change (s.engine.slot s.engine.respTag).rdata.setWidth 32 =
      (s'.engine.slot s'.engine.respTag).rdata.setWidth 32
    rw [← htag, (h.engine.slot _).rdata hslot hread]
  · intro r h₁ h₂ h₃
    simp only [State.readReg, State.avsReaddata, h₁, h₂, h₃, if_false, Engine.State.biasRdData,
      Engine.State.biActive, Engine.State.biReqValid, Engine.State.biReqAddr, State.engineInputs,
      h.engine.bias, h.biasAddr, h.engine.biState, h.reqAddr, h.engine.dbgCacheHits,
      h.engine.dbgCacheMisses, h.cacheBypassEn]
  · intro b
    rw [State.avsWaitrequest, State.avsWaitrequest, h.pendingValid]

end Cycle

section Undefined

variable {s s' : State q} {b : Bus}

theorem sameButPending_of_none (hp : s.pendingValid = false) (w : Bool) (g : q.engine.Tag) :
    s.SameButPending { s with pendingIsWrite := w, pendingTag := g } := Or.inr ⟨hp, w, g, rfl⟩

/-- The engine does not look at the payload of a request that is not there. -/
theorem step_of_none (hp : s.pendingValid = false) (w : Bool) (g : q.engine.Tag) :
    s.engine.step (State.engineInputs { s with pendingIsWrite := w, pendingTag := g } b) =
      s.engine.step (s.engineInputs b) := by
  have hedge : s.engine.edge { s.engineInputs b with m2sIsWrite := w, m2sTag := g } =
      s.engine.edge (s.engineInputs b) := edge_of_invalid hp w g
  rw [Engine.State.step, Engine.State.step, ← hedge]
  rfl

theorem State.SameButPending.settle (h : s.SameButPending s') :
    (s.settle b).SameButPending (s'.settle b) := by
  obtain rfl | ⟨hp, w, g, rfl⟩ := h
  · exact Or.inl rfl
  · rw [State.settle, State.settle]
    split
    · exact sameButPending_of_none hp w g
    · exact sameButPending_of_none rfl w g

/-- The payload of a request that is not there stays where it is, until one is fired. -/
theorem edge_of_none (hp : s.pendingValid = false) (w : Bool) (g : q.engine.Tag) :
    State.edge { s with pendingIsWrite := w, pendingTag := g } b =
      { s.edge b with
        pendingIsWrite := if b.writeFire then b.writeBit else w
        pendingTag := if b.writeFire then b.writeTag q else g } := by
  have hvalid : State.pendingValidNext { s with pendingIsWrite := w, pendingTag := g } b =
      s.pendingValidNext b := by
    simp [State.pendingValidNext, hp]
  have hisWrite : State.pendingIsWriteNext { s with pendingIsWrite := w, pendingTag := g } b =
      if b.writeFire then b.writeBit else w := by
    simp [State.pendingIsWriteNext, hp]
  have htag : State.pendingTagNext { s with pendingIsWrite := w, pendingTag := g } b =
      if b.writeFire then b.writeTag q else g := by
    simp [State.pendingTagNext, hp]
  have hseen : State.seenRequestNext { s with pendingIsWrite := w, pendingTag := g } b =
      s.seenRequestNext b := by
    simp [State.seenRequestNext, hp]
  rw [State.edge, State.edge, hvalid, hisWrite, htag, hseen, step_of_none hp]
  rfl

theorem State.SameButPending.edge (h : s.SameButPending s') :
    (s.edge b).SameButPending (s'.edge b) := by
  obtain rfl | ⟨hp, w, g, rfl⟩ := h
  · exact Or.inl rfl
  · have hedge := edge_of_none (b := b) hp w g
    rw [hedge]
    cases hf : b.writeFire with
    | true =>
        left
        simp [State.edge, State.pendingIsWriteNext, State.pendingTagNext, hp, hf]
    | false =>
        apply sameButPending_of_none
        simp [State.edge, State.pendingValidNext, hp, hf]

theorem State.SameButPending.step (h : s.SameButPending s') :
    (s.step b).SameButPending (s'.step b) := by
  cases hrst : b.rstn with
  | true =>
      rw [State.step_of_rstn hrst, State.step_of_rstn hrst]
      exact h.edge
  | false =>
      have hlow : ¬ b.rstn = true := by simp [hrst]
      obtain rfl | ⟨hp, w, g, rfl⟩ := h
      · exact Or.inl rfl
      · rw [State.step, State.step, if_neg hlow, if_neg hlow]
        exact Or.inr ⟨rfl, w, g, congrArg (fun e => { s.reset with
          pendingIsWrite := w, pendingTag := g, engine := e }) (step_of_none hp w g)⟩

/-- No output of the shim ever depends on what the two payload registers of the pending
request, which have neither a reset nor an initial value, hold at power-on. On every bus
trace, with resets at any time, and in every cycle, each register reads the same and the
same accesses are held up, and the debug outputs agree as well. -/
theorem undefined_unobservable (x x' : Undefined q) (bus : ℕ → Bus) (t : ℕ) :
    (∀ r, (run x bus t).readReg r = (run x' bus t).readReg r) ∧
      (∀ b, (run x bus t).avsWaitrequest b = (run x' bus t).avsWaitrequest b) ∧
      (run x bus t).dbgHeartbeat = (run x' bus t).dbgHeartbeat ∧
      (run x bus t).dbgSeenRequest = (run x' bus t).dbgSeenRequest ∧
      (run x bus t).dbgSeenResponse = (run x' bus t).dbgSeenResponse := by
  have hstart : (run x bus 0).SameButPending (run x' bus 0) :=
    State.SameButPending.settle (Or.inr ⟨rfl, x'.pendingIsWrite, x'.pendingTag, rfl⟩)
  have hall := (machine q).run_related (R := State.SameButPending)
    (fun s s' b (h : s.SameButPending s') => h.settle (b := b))
    (fun s s' b (h : s.SameButPending s') => h.step (b := b)) hstart (fun _ => rfl) t
  rw [Nat.zero_add] at hall
  obtain hsame | ⟨_, w, g, hsame⟩ := hall
  · have heq : run x' bus t = run x bus t := hsame
    rw [heq]
    exact ⟨fun _ => rfl, fun _ => rfl, rfl, rfl, rfl⟩
  · have heq : run x' bus t = { run x bus t with pendingIsWrite := w, pendingTag := g } := hsame
    rw [heq]
    exact ⟨fun _ => rfl, fun _ => rfl, rfl, rfl, rfl⟩

end Undefined

end Shim

end CxlLite
