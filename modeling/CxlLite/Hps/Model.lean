import CxlLite.Engine.WriteBack
import CxlLite.Shim.Service

/-!
# The sequential model of the shim

Seen one request at a time, the shim is a write-back cache that can be bypassed,
a bias bit for each address, and two counters. The clock edges that carry a
request through the engine change these values in two places only: when a victim
is written back, and when the request is accepted.
-/

namespace CxlLite.Hps

open DirectMapped Engine

variable {p : Params}

/-- What software can find out about the shim between two requests. -/
structure Model (p : Params) where
  cache : WriteBackCache.State p.Addr p.Idx p.CacheTag p.Data
  bias : BiasTable p
  bypass : Bool
  hits : BitVec 32
  misses : BitVec 32

namespace Model

section Definitions

variable (m : Model p)

/-- A request for `a` is served from its line. -/
def Hit (a : p.Addr) : Prop := m.bypass = false ∧ Resident (geometry p) m.cache.lines a

instance (a : p.Addr) : Decidable (m.Hit a) := inferInstanceAs (Decidable (_ ∧ _))

/-- A request for `a` displaces unwritten data. -/
def Evicts (a : p.Addr) : Prop :=
  m.bypass = false ∧ NeedsWriteBack (geometry p) m.cache.lines a

instance (a : p.Addr) : Decidable (m.Evicts a) := inferInstanceAs (Decidable (_ ∧ _))

/-- The data that a read of `a` returns. -/
def answer (a : p.Addr) : p.Data :=
  if m.Hit a then (m.cache.lines (idxField a)).data else m.cache.mem a

/-- Cache and memory after a request. -/
def cacheAfter (r : WriteBackCache.Access p.Addr p.Data) :
    WriteBackCache.State p.Addr p.Idx p.CacheTag p.Data :=
  if m.bypass then
    { m.cache with
      mem := if r.isWrite then Function.update m.cache.mem r.addr r.wdata else m.cache.mem }
  else WriteBackCache.step (geometry p) m.cache r

/-- One request. -/
def access (r : WriteBackCache.Access p.Addr p.Data) : Model p :=
  { m with
    cache := m.cacheAfter r
    hits := if m.Hit r.addr then m.hits + 1 else m.hits
    misses := if m.Hit r.addr then m.misses else m.misses + 1 }

/-- The line of `a` is written back. -/
def evict (a : p.Addr) : Model p :=
  { m with
    cache :=
      { lines := Function.update m.cache.lines (idxField a)
          { m.cache.lines (idxField a) with dirty := false }
        mem := Function.update m.cache.mem (lineAddr (m.cache.lines (idxField a)).tag (idxField a))
          (m.cache.lines (idxField a)).data } }

/-- The bias of `a` is set. -/
def setBias (a : p.Addr) (hostBiased : Bool) : Model p :=
  { m with bias := Function.update m.bias a hostBiased }

/-- The bypass control is set. -/
def setBypass (b : Bool) : Model p := { m with bypass := b }

end Definitions

section Eviction

variable {m : Model p} {a : p.Addr}

theorem hit_evict (b : p.Addr) : (m.evict a).Hit b ↔ m.Hit b := by
  rw [Hit, Hit]
  exact and_congr_right fun _ => resident_clean (geometry p) b

theorem Evicts.not_hit (h : m.Evicts a) : ¬ m.Hit a := fun hr => h.2.2.2 hr.2

theorem not_evicts_evict : ¬ (m.evict a).Evicts a := by
  rintro ⟨_, _, hdirty, _⟩
  simp [evict, geometry] at hdirty

/-- A request whose victim has been written back goes on as if it found it dirty. -/
theorem access_evict {r : WriteBackCache.Access p.Addr p.Data} (h : m.Evicts r.addr) :
    (m.evict r.addr).access r = m.access r := by
  have hline : WriteBackCache.lineNext (geometry p) (m.evict r.addr).cache r =
      WriteBackCache.lineNext (geometry p) m.cache r := by
    have hclean : ¬ Resident (geometry p) (m.evict r.addr).cache.lines r.addr := by
      intro hr
      exact h.2.2.2 ((resident_clean (geometry p) r.addr).mp hr)
    have hnone := WriteBackCache.writeBack_eq_none (r := r) (geometry p)
      (s := (m.evict r.addr).cache) fun hn => not_evicts_evict (m := m) ⟨h.1, hn⟩
    have hsome := WriteBackCache.writeBack_eq_some (r := r) (geometry p) h.2
    rw [WriteBackCache.lineNext, WriteBackCache.lineNext, hnone, hsome, if_neg h.2.2.2,
      if_neg h.2.2.2, if_neg hclean, if_neg hclean]
    rfl
  have hcache : (m.evict r.addr).cacheAfter r = m.cacheAfter r := by
    have hbypass : (m.evict r.addr).bypass = false := h.1
    have hnone := WriteBackCache.writeBack_eq_none (r := r) (geometry p)
      (s := (m.evict r.addr).cache) fun hn => not_evicts_evict (m := m) ⟨h.1, hn⟩
    have hsome := WriteBackCache.writeBack_eq_some (r := r) (geometry p) h.2
    rw [cacheAfter, cacheAfter, hbypass, h.1]
    simp only [Bool.false_eq_true, if_false, WriteBackCache.step, hline, hnone, hsome]
    simp only [evict, WriteBackCache.store]
    rw [show (geometry p).idx r.addr = idxField r.addr from rfl, Function.update_idem]
    rfl
  rw [access, access, hcache]
  simp only [hit_evict]
  rfl

/-- What the write-back leaves at the address of the request. -/
theorem answer_evict (h : m.Evicts a) : (m.evict a).answer a = m.answer a := by
  rw [answer, answer, if_neg (mt (hit_evict a).mp h.not_hit), if_neg h.not_hit]
  apply Function.update_of_ne
  intro heq
  apply h.2.2.2
  have htag := congrArg tagField heq
  rw [tagField_lineAddr] at htag
  exact ⟨h.2.1, htag.symm⟩

/-- A read does not look at the write data. -/
theorem access_congr {r r' : WriteBackCache.Access p.Addr p.Data} (ha : r.addr = r'.addr)
    (hw : r.isWrite = r'.isWrite) (hd : r'.isWrite = true → r.wdata = r'.wdata) :
    m.access r = m.access r' := by
  obtain ⟨a, w, d⟩ := r
  obtain ⟨a', w', d'⟩ := r'
  obtain rfl : a = a' := ha
  obtain rfl : w = w' := hw
  cases w with
  | true =>
      obtain rfl : d = d' := hd rfl
      rfl
  | false => rfl

/-- A request leaves the lines of the other indices alone. -/
theorem lines_access_of_ne {r : WriteBackCache.Access p.Addr p.Data} {i : p.Idx}
    (h : i ≠ idxField r.addr) : (m.access r).cache.lines i = m.cache.lines i := by
  rw [access, cacheAfter]
  split
  · rfl
  · exact Function.update_of_ne h _ _

@[simp] theorem access_bias (r : WriteBackCache.Access p.Addr p.Data) :
    (m.access r).bias = m.bias := rfl

@[simp] theorem access_bypass (r : WriteBackCache.Access p.Addr p.Data) :
    (m.access r).bypass = m.bypass := rfl

@[simp] theorem evict_bias : (m.evict a).bias = m.bias := rfl

theorem evicts_access_of_ne {r : WriteBackCache.Access p.Addr p.Data} {b : p.Addr}
    (h : idxField b ≠ idxField r.addr) : (m.access r).Evicts b ↔ m.Evicts b := by
  simp only [Evicts, NeedsWriteBack, Resident, geometry, access_bypass,
    lines_access_of_ne (m := m) h]

end Eviction

section Abstraction

variable {q : ShimParams}

/-- The model that a state of the shim stands for. -/
def ofShim (s : Shim.State q) : Model q.engine where
  cache := ⟨s.engine.cache, s.engine.mem⟩
  bias := s.engine.bias
  bypass := s.cacheBypassEn
  hits := s.engine.dbgCacheHits
  misses := s.engine.dbgCacheMisses

variable {s : Shim.State q} {b : Shim.Bus}

theorem hit_ofShim :
    (ofShim s).Hit s.reqAddr ↔ s.engine.cacheHitEff (s.engineInputs b) = true := by
  rw [Engine.State.cacheHitEff, Bool.and_eq_true, Bool.not_eq_true', cacheHit_iff, and_comm]
  rfl

theorem evicts_ofShim :
    (ofShim s).Evicts s.reqAddr ↔ s.engine.needEvictWriteback (s.engineInputs b) = true :=
  (needEvictWriteback_iff (s := s.engine) (i := s.engineInputs b)).symm

theorem answer_ofShim :
    (ofShim s).answer s.reqAddr = s.engine.readCapture (s.engineInputs b) := by
  rw [answer, Engine.State.readCapture]
  exact if_congr hit_ofShim rfl rfl

/-- A cycle writes neither the bias table nor the bypass control. -/
structure Unbiased (s : Shim.State q) (b : Shim.Bus) : Prop where
  rstn : b.rstn = true
  bias : b.writeBias = false
  bypass : b.writeBypass = false
  flip : s.engine.biFlipNow (s.engineInputs b) = false

theorem Unbiased.bias_edge (h : Unbiased s b) : (s.edge b).engine.bias = s.engine.bias := by
  have hen : (s.engineInputs b).biasWrEn = false := h.bias
  rw [Shim.State.edge_engine h.rstn]
  change s.engine.biasNext (s.engineInputs b) = s.engine.bias
  rw [biasNext_of_not_flip h.flip, hen]
  rfl

theorem Unbiased.bypass_edge (h : Unbiased s b) : (s.edge b).cacheBypassEn = s.cacheBypassEn := by
  simp [Shim.State.edge, Shim.State.cacheBypassEnNext, h.bypass]

/-- Without flush and acceptance only the bias table and the bypass control can change. -/
theorem ofShim_quiet (hrst : b.rstn = true) (hf : s.engine.doFlushWriteThisCycle = false)
    (ha : s.engine.acceptThisCycle (s.engineInputs b) = false) :
    ofShim (s.edge b) =
      { ofShim s with
        bias := s.engine.biasNext (s.engineInputs b)
        bypass := s.cacheBypassEnNext b } := by
  obtain ⟨hcache, hmem⟩ := storage_of_idle hf ha
  rw [ofShim, ofShim, Shim.State.edge_engine hrst]
  simp only [Engine.State.edge, hcache, hmem, Engine.State.dbgCacheHitsNext,
    Engine.State.dbgCacheMissesNext, ha, Bool.false_and, Bool.false_eq_true, if_false]
  rfl

/-- Nothing changes in a cycle without flush and acceptance. -/
theorem ofShim_idle (h : Unbiased s b) (hf : s.engine.doFlushWriteThisCycle = false)
    (ha : s.engine.acceptThisCycle (s.engineInputs b) = false) :
    ofShim (s.edge b) = ofShim s := by
  have hbias : s.engine.biasNext (s.engineInputs b) = s.engine.bias := by
    have hedge := h.bias_edge
    rwa [Shim.State.edge_engine h.rstn] at hedge
  have hbypass : s.cacheBypassEnNext b = s.cacheBypassEn := h.bypass_edge
  rw [ofShim_quiet h.rstn hf ha, hbias, hbypass]
  rfl

/-- The flush cycle writes the victim of the presented request back. -/
theorem ofShim_flush (h : Unbiased s b) (hf : s.engine.doFlushWriteThisCycle = true) :
    ofShim (s.edge b) = (ofShim s).evict s.reqAddr := by
  have ha : s.engine.acceptThisCycle (s.engineInputs b) = false :=
    not_accept_of_not_ready (not_ready_of_flush hf)
  rw [ofShim, ofShim, h.bias_edge, h.bypass_edge, Shim.State.edge_engine h.rstn]
  simp only [Engine.State.edge, cacheNext_of_flush hf, memNext_of_flush hf,
    Engine.State.dbgCacheHitsNext, Engine.State.dbgCacheMissesNext, ha, Bool.false_and,
    Bool.false_eq_true, if_false]
  rfl

/-- The acceptance carries the presented request out. -/
theorem ofShim_accept (h : Unbiased s b)
    (ha : s.engine.acceptThisCycle (s.engineInputs b) = true) :
    ofShim (s.edge b) = (ofShim s).access (s.engineInputs b).access := by
  have hhit := hit_ofShim (s := s) (b := b)
  have hcache : WriteBackCache.State.mk ((s.edge b).engine.cache) ((s.edge b).engine.mem) =
      (ofShim s).cacheAfter (s.engineInputs b).access := by
    rw [Shim.State.edge_engine h.rstn, cacheAfter]
    change WriteBackCache.State.mk (s.engine.cacheNext (s.engineInputs b))
      (s.engine.memNext (s.engineInputs b)) = _
    cases hb : s.cacheBypassEn with
    | true =>
        have hbypass : (ofShim s).bypass = true := hb
        rw [if_pos hbypass, cacheNext_of_bypass (not_flush_of_accept ha) hb]
        cases hw : s.pendingIsWrite with
        | true =>
            rw [memNext_of_bypass_write ha hb hw]
            simp only [Inputs.access, Shim.State.engineInputs, hw, if_true]
            rfl
        | false =>
            rw [memNext_of_read (not_flush_of_accept ha) hw]
            simp only [Inputs.access, Shim.State.engineInputs, hw, Bool.false_eq_true, if_false]
            rfl
    | false =>
        have hbypass : ¬ (ofShim s).bypass = true := by
          rw [show (ofShim s).bypass = s.cacheBypassEn from rfl, hb]
          exact Bool.false_ne_true
        have hneed : ¬ NeedsWriteBack (geometry q.engine) s.engine.cache s.reqAddr := by
          intro hn
          have hno := (accept_iff.mp ha).2.2.2.2.2
          rw [needEvictWriteback_iff.mpr ⟨hb, hn⟩] at hno
          cases hno
        have hnone := WriteBackCache.writeBack_eq_none (r := (s.engineInputs b).access)
          (geometry q.engine) (s := (ofShim s).cache) hneed
        have hline : s.engine.acceptLine (s.engineInputs b) = WriteBackCache.lineNext
            (geometry q.engine) (ofShim s).cache (s.engineInputs b).access := by
          apply acceptLine_eq_lineNext
          · exact cacheHit_iff
          · intro _
            rfl
          · rw [hnone]
            rfl
        rw [if_neg hbypass, cacheNext_of_accept ha hb, memNext_of_accept ha hb, hline,
          WriteBackCache.step, hnone]
        rfl
  rw [access, ← hcache, ofShim, h.bias_edge, h.bypass_edge, Shim.State.edge_engine h.rstn]
  simp only [Engine.State.edge, Engine.State.dbgCacheHitsNext, Engine.State.dbgCacheMissesNext,
    ha, Bool.true_and]
  rw [show ((s.engineInputs b).access).addr = s.reqAddr from rfl]
  by_cases hr : (ofShim s).Hit s.reqAddr
  · rw [if_pos hr, if_pos hr, hhit.mp hr]
    rfl
  · rw [if_neg hr, if_neg hr, Bool.eq_false_iff.mpr (mt hhit.mpr hr)]
    rfl

end Abstraction

end Model

end CxlLite.Hps
