import CxlLite.Engine.Memory
import CxlLite.Storage.WriteBackCache
import CxlLite.Synchronous.Mailbox

/-!
# Writeback traffic

With bypass low the engine runs as the reference write-back cache on the
accepted requests. It is at most one write ahead of the reference: the flush for
the request that still waits at the port.
-/

namespace CxlLite.Engine

open DirectMapped Synchronous WriteBackCache

variable {p : Params}

/-- The presented request as an access to the cache. -/
def Inputs.access (i : Inputs p) : Access p.Addr p.Data := ⟨i.m2sAddr, i.m2sIsWrite, i.m2sWdata⟩

section Statements

variable (inp : ℕ → Inputs p) (t : ℕ)

/-- The word written to the backing memory in cycle `t`. -/
def memWrite : Option (p.Addr × p.Data) :=
  if (run inp t).doFlushWriteThisCycle then
    some ((run inp t).flushAddr (inp t), ((run inp t).cache (idxField (inp t).m2sAddr)).data)
  else if accepts inp t && (inp t).cacheBypassEn && (inp t).m2sIsWrite then
    some ((inp t).m2sAddr, (inp t).m2sWdata)
  else none

/-- The request accepted in cycle `t`, if any. -/
def acceptedAccess : Option (Access p.Addr p.Data) :=
  if accepts inp t then some (inp t).access else none

/-- The reference cache at power-on. -/
def referenceInit (p : Params) : WriteBackCache.State p.Addr p.Idx p.CacheTag p.Data :=
  ⟨(powerOn p).cache, (powerOn p).mem⟩

/-- The reference cache after the requests accepted before cycle `t`. -/
def reference : WriteBackCache.State p.Addr p.Idx p.CacheTag p.Data :=
  WriteBackCache.run (geometry p) (referenceInit p) (history (acceptedAccess inp) t)

/-- The writes of the reference cache for the requests accepted before cycle `t`. -/
def referenceTraffic : List (p.Addr × p.Data) :=
  traffic (geometry p) (referenceInit p) (history (acceptedAccess inp) t)

/-- The engine has written what the reference cache has written, and agrees with it. -/
structure InStep : Prop where
  lines : (run inp t).cache = (reference inp t).lines
  mem : (run inp t).mem = (reference inp t).mem
  writes : history (memWrite inp) t = referenceTraffic inp t

/-- The request waiting at the port has already had its line written back. -/
structure Ahead : Prop where
  valid : (inp t).m2sValid = true
  flush : (run inp t).flushState = .idle
  needs : NeedsWriteBack (geometry p) (reference inp t).lines (inp t).m2sAddr
  lines : (run inp t).cache = Function.update (reference inp t).lines (idxField (inp t).m2sAddr)
    { (reference inp t).lines (idxField (inp t).m2sAddr) with dirty := false }
  mem : (run inp t).mem = store (reference inp t).mem
    (writeBack (geometry p) (reference inp t) (inp t).access)
  writes : history (memWrite inp) t = referenceTraffic inp t ++
    (writeBack (geometry p) (reference inp t) (inp t).access).toList

end Statements

section Memory

variable {inp : ℕ → Inputs p} {t : ℕ}

/-- The backing memory changes by the word written in the cycle, and no other. -/
theorem run_mem_store : (run inp (t + 1)).mem = store (run inp t).mem (memWrite inp t) := by
  rw [run_mem_succ, State.memNext, memWrite, ← accepts]
  split
  · rfl
  · split <;> rfl

theorem memWrite_of_flush (h : (run inp t).doFlushWriteThisCycle = true) :
    memWrite inp t = some ((run inp t).flushAddr (inp t),
      ((run inp t).cache (idxField (inp t).m2sAddr)).data) := if_pos h

theorem memWrite_of_not_flush (h : (run inp t).doFlushWriteThisCycle = false)
    (hb : (inp t).cacheBypassEn = false) : memWrite inp t = none := by
  simp [memWrite, h, hb]

theorem reference_succ_of_accepts (h : accepts inp t = true) :
    reference inp (t + 1) = WriteBackCache.step (geometry p) (reference inp t)
      (inp t).access := by
  rw [reference, history_succ, acceptedAccess, if_pos h, Option.toList_some, run_append]
  rfl

theorem referenceTraffic_succ_of_accepts (h : accepts inp t = true) :
    referenceTraffic inp (t + 1) = referenceTraffic inp t ++
      (writeBack (geometry p) (reference inp t) (inp t).access).toList := by
  rw [referenceTraffic, history_succ, acceptedAccess, if_pos h, Option.toList_some,
    traffic_append]
  rfl

theorem history_of_not_accepts (h : accepts inp t = false) :
    history (acceptedAccess inp) (t + 1) = history (acceptedAccess inp) t := by
  rw [history_succ, acceptedAccess, h]
  simp

theorem reference_succ_of_not_accepts (h : accepts inp t = false) :
    reference inp (t + 1) = reference inp t := by
  rw [reference, history_of_not_accepts h, reference]

theorem referenceTraffic_succ_of_not_accepts (h : accepts inp t = false) :
    referenceTraffic inp (t + 1) = referenceTraffic inp t := by
  rw [referenceTraffic, history_of_not_accepts h, referenceTraffic]

end Memory

section Simulation

variable {inp : ℕ → Inputs p} {t : ℕ}

theorem flushState_succ_of_flush (h : (run inp t).doFlushWriteThisCycle = true) :
    (run inp (t + 1)).flushState = .idle := by
  cases hf : (run inp (t + 1)).flushState with
  | idle => rfl
  | active =>
      have hidle := (wantFlush_iff.mp (wantFlush_of_active hf)).1
      rw [flush_iff.mp h] at hidle
      cases hidle

/-- A request that waits for a flush is still presented when the flush is carried
out, and still needs it. -/
theorem waiting_of_flush (hh : HoldsAddress inp) (h : (run inp t).doFlushWriteThisCycle = true) :
    (inp t).m2sValid = true ∧
      NeedsWriteBack (geometry p) (run inp t).cache (inp t).m2sAddr := by
  obtain ⟨u, rfl, hw⟩ := exists_wantFlush h
  obtain ⟨_, _, _, hvalid, hneed⟩ := wantFlush_iff.mp hw
  constructor
  · exact (hh u ⟨hvalid, not_ready_of_need hneed⟩).1
  · exact flush_target hh (flush_iff.mp h)

/-- The line that an acceptance leaves is the line of the reference cache. -/
theorem acceptLine_eq_lineNext {s : State p} {i : Inputs p}
    {c : WriteBackCache.State p.Addr p.Idx p.CacheTag p.Data}
    (hhit : s.cacheHit i.m2sAddr = true ↔ Resident (geometry p) c.lines i.m2sAddr)
    (hline : Resident (geometry p) c.lines i.m2sAddr →
      s.cache (idxField i.m2sAddr) = c.lines (idxField i.m2sAddr))
    (hmem : s.mem = store c.mem (writeBack (geometry p) c i.access)) :
    s.acceptLine i = lineNext (geometry p) c i.access := by
  have hw : i.access.isWrite = i.m2sIsWrite := rfl
  simp only [State.acceptLine, lineNext, hw]
  by_cases hr : Resident (geometry p) c.lines i.access.addr
  · rw [hhit.mpr hr, hline hr]
    simp only [if_pos hr]
    cases i.m2sIsWrite <;> rfl
  · have hmiss : s.cacheHit i.m2sAddr = false := by
      rw [Bool.eq_false_iff]
      exact mt hhit.mp hr
    rw [hmiss, hmem]
    simp only [if_neg hr]
    cases i.m2sIsWrite <;> rfl

theorem inStep_zero : InStep inp 0 where
  lines := by
    rw [run_zero, State.settle_cache]
    rfl
  mem := by
    rw [run_zero, State.settle_mem]
    rfl
  writes := rfl

/-- The reference cache makes no write for a request that is accepted in step. -/
theorem InStep.writeBack_of_accepts (h : InStep inp t) (ha : accepts inp t = true)
    (hb : (inp t).cacheBypassEn = false) :
    writeBack (geometry p) (reference inp t) (inp t).access = none := by
  apply writeBack_eq_none
  intro hneed
  have hno := (accept_iff.mp ha).2.2.2.2.2
  rw [needEvictWriteback_iff.mpr ⟨hb, by rw [h.lines]; exact hneed⟩] at hno
  cases hno

theorem InStep.accept (h : InStep inp t) (ha : accepts inp t = true)
    (hb : (inp t).cacheBypassEn = false) : InStep inp (t + 1) := by
  have hnone := h.writeBack_of_accepts ha hb
  have hmem : (run inp t).mem = store (reference inp t).mem
      (writeBack (geometry p) (reference inp t) (inp t).access) := by
    rw [hnone, h.mem]
    rfl
  have hline : (run inp t).acceptLine (inp t) =
      lineNext (geometry p) (reference inp t) (inp t).access := by
    apply acceptLine_eq_lineNext
    · rw [cacheHit_iff, h.lines]
    · intro _
      rw [h.lines]
    · exact hmem
  constructor
  · rw [run_cache_succ, cacheNext_of_accept ha hb, hline, h.lines, reference_succ_of_accepts ha]
    rfl
  · rw [run_mem_succ, memNext_of_accept ha hb, hmem, reference_succ_of_accepts ha]
    rfl
  · rw [history_succ, memWrite_of_not_flush (not_flush_of_accept ha) hb, h.writes,
      referenceTraffic_succ_of_accepts ha, hnone]

theorem InStep.idle (h : InStep inp t) (ha : accepts inp t = false)
    (hf : (run inp t).doFlushWriteThisCycle = false) (hb : (inp t).cacheBypassEn = false) :
    InStep inp (t + 1) := by
  obtain ⟨hcache, hmem⟩ := storage_of_idle hf ha
  constructor
  · rw [run_cache_succ, hcache, h.lines, reference_succ_of_not_accepts ha]
  · rw [run_mem_succ, hmem, h.mem, reference_succ_of_not_accepts ha]
  · rw [history_succ, memWrite_of_not_flush hf hb, h.writes,
      referenceTraffic_succ_of_not_accepts ha]
    simp

/-- In step, the flush write is the write of the reference cache for the waiting request. -/
theorem InStep.memWrite_eq (hh : HoldsAddress inp) (h : InStep inp t)
    (hf : (run inp t).doFlushWriteThisCycle = true) :
    memWrite inp t = writeBack (geometry p) (reference inp t) (inp t).access := by
  have hneed := (waiting_of_flush hh hf).2
  rw [h.lines] at hneed
  rw [memWrite_of_flush hf, State.flushAddr, h.lines, writeBack_eq_some _ hneed]
  rfl

/-- A flush puts the engine one write ahead of the reference cache. -/
theorem InStep.flush (hh : HoldsAddress inp) (h : InStep inp t)
    (hf : (run inp t).doFlushWriteThisCycle = true) : Ahead inp (t + 1) := by
  have hready : (run inp t).m2sReady (inp t) = false := not_ready_of_flush hf
  have ha : accepts inp t = false := not_accept_of_not_ready hready
  obtain ⟨hwaiting, hneed⟩ := waiting_of_flush hh hf
  obtain ⟨hvalid, haddr⟩ := hh t ⟨hwaiting, hready⟩
  rw [h.lines] at hneed
  have hwrite : memWrite inp t =
      writeBack (geometry p) (reference inp t) (inp (t + 1)).access :=
    (h.memWrite_eq hh hf).trans (writeBack_congr _ haddr).symm
  constructor
  · exact hvalid
  · exact flushState_succ_of_flush hf
  · rw [reference_succ_of_not_accepts ha, haddr]
    exact hneed
  · rw [run_cache_succ, cacheNext_of_flush hf, h.lines, reference_succ_of_not_accepts ha, haddr]
  · rw [run_mem_store, h.mem, hwrite, reference_succ_of_not_accepts ha]
  · rw [history_succ, h.writes, hwrite, reference_succ_of_not_accepts ha,
      referenceTraffic_succ_of_not_accepts ha]

/-- The acceptance of the waiting request brings the reference cache into step. -/
theorem Ahead.accept (h : Ahead inp t) (ha : accepts inp t = true)
    (hb : (inp t).cacheBypassEn = false) : InStep inp (t + 1) := by
  have hline : (run inp t).acceptLine (inp t) =
      lineNext (geometry p) (reference inp t) (inp t).access := by
    apply acceptLine_eq_lineNext
    · rw [cacheHit_iff, h.lines]
      exact resident_clean (geometry p) _
    · intro hr
      exact absurd hr h.needs.2.2
    · exact h.mem
  constructor
  · rw [run_cache_succ, cacheNext_of_accept ha hb, hline, h.lines, Function.update_idem,
      reference_succ_of_accepts ha]
    rfl
  · rw [run_mem_succ, memNext_of_accept ha hb, h.mem, reference_succ_of_accepts ha]
    rfl
  · rw [history_succ, memWrite_of_not_flush (not_flush_of_accept ha) hb, h.writes,
      referenceTraffic_succ_of_accepts ha]
    simp

/-- A request whose line is clean does not start a flush. -/
theorem Ahead.flushState_succ (h : Ahead inp t) : (run inp (t + 1)).flushState = .idle := by
  cases hf : (run inp (t + 1)).flushState with
  | idle => rfl
  | active =>
      obtain ⟨_, _, _, _, hneed⟩ := wantFlush_iff.mp (wantFlush_of_active hf)
      have hdirty := (needEvictWriteback_iff.mp hneed).2.2.1
      rw [h.lines] at hdirty
      simp [geometry] at hdirty

theorem Ahead.wait (hh : HoldsAddress inp) (h : Ahead inp t) (ha : accepts inp t = false)
    (hb : (inp t).cacheBypassEn = false) : Ahead inp (t + 1) := by
  have hf : (run inp t).doFlushWriteThisCycle = false := not_flush_of_idle h.flush
  have hready : (run inp t).m2sReady (inp t) = false := by
    simpa [accepts, State.acceptThisCycle, h.valid] using ha
  obtain ⟨hvalid, haddr⟩ := hh t ⟨h.valid, hready⟩
  obtain ⟨hcache, hmem⟩ := storage_of_idle hf ha
  have hback : writeBack (geometry p) (reference inp t) (inp (t + 1)).access =
      writeBack (geometry p) (reference inp t) (inp t).access := writeBack_congr _ haddr
  constructor
  · exact hvalid
  · exact h.flushState_succ
  · rw [reference_succ_of_not_accepts ha, haddr]
    exact h.needs
  · rw [run_cache_succ, hcache, h.lines, reference_succ_of_not_accepts ha, haddr]
  · rw [run_mem_succ, hmem, h.mem, reference_succ_of_not_accepts ha, hback]
  · rw [history_succ, memWrite_of_not_flush hf hb, h.writes, reference_succ_of_not_accepts ha,
      referenceTraffic_succ_of_not_accepts ha, hback]
    simp

end Simulation

section Traffic

variable {inp : ℕ → Inputs p} {t : ℕ}

/-- The simulation invariant: the engine is in step with the reference cache, or
ahead of it by the flush for the waiting request. -/
theorem inStep_or_ahead (hh : HoldsAddress inp) (hb : ∀ t, (inp t).cacheBypassEn = false)
    (t : ℕ) : InStep inp t ∨ Ahead inp t := by
  induction t with
  | zero => exact Or.inl inStep_zero
  | succ t ih =>
      cases ha : accepts inp t with
      | true =>
          left
          rcases ih with h | h
          · exact h.accept ha (hb t)
          · exact h.accept ha (hb t)
      | false =>
          rcases ih with h | h
          · cases hf : (run inp t).doFlushWriteThisCycle with
            | true => exact Or.inr (h.flush hh hf)
            | false => exact Or.inl (h.idle ha hf (hb t))
          · exact Or.inr (h.wait hh ha (hb t))

theorem flush_of_memWrite (hb : (inp t).cacheBypassEn = false) (h : (memWrite inp t).isSome) :
    (run inp t).doFlushWriteThisCycle = true := by
  by_contra hf
  rw [memWrite_of_not_flush (Bool.eq_false_iff.mpr hf) hb] at h
  cases h

/-- The engine writes to memory only while it is in step. -/
theorem inStep_of_flush (hh : HoldsAddress inp) (hb : ∀ t, (inp t).cacheBypassEn = false)
    (h : (run inp t).doFlushWriteThisCycle = true) : InStep inp t := by
  rcases inStep_or_ahead hh hb t with hs | ha
  · exact hs
  · rw [not_flush_of_idle ha.flush] at h
    cases h

/-- Once ahead, the engine stays ahead until the waiting request is accepted. -/
theorem ahead_of_no_accept (hh : HoldsAddress inp) (hb : ∀ t, (inp t).cacheBypassEn = false)
    {u v : ℕ} (huv : u ≤ v) (h : Ahead inp u)
    (hno : ∀ w, u ≤ w → w < v → accepts inp w = false) : Ahead inp v := by
  induction v, huv using Nat.le_induction with
  | base => exact h
  | succ v huv ih =>
      have hv := ih fun w h₁ h₂ => hno w h₁ (Nat.lt_succ_of_lt h₂)
      exact hv.wait hh (hno v huv (Nat.lt_succ_self v)) (hb v)

/-- With bypass low and a host that holds a stalled request, the writes to the
backing memory are those of the reference cache on the accepted requests, and at
most one more for the request that waits at the port. Each write carries the
last word written to its address, two writes are separated by an acceptance,
and no other word of the memory changes. -/
theorem writeback_traffic (hh : HoldsAddress inp) (hb : ∀ t, (inp t).cacheBypassEn = false) :
    (∀ t, history (memWrite inp) t = referenceTraffic inp t ∨
      (inp t).m2sValid = true ∧
        ∃ w, writeBack (geometry p) (reference inp t) (inp t).access = some w ∧
          history (memWrite inp) t = referenceTraffic inp t ++ [w]) ∧
    (∀ t a d, memWrite inp t = some (a, d) →
      LastWrite (history (acceptedAccess inp) t) a d) ∧
    (∀ u v, u < v → (memWrite inp u).isSome → (memWrite inp v).isSome →
      ∃ w, u ≤ w ∧ w < v ∧ accepts inp w = true) ∧
    ∀ t, (run inp (t + 1)).mem = store (run inp t).mem (memWrite inp t) := by
  refine ⟨?_, ?_, ?_, ?_⟩
  · intro t
    rcases inStep_or_ahead hh hb t with h | h
    · exact Or.inl h.writes
    · right
      have hw := writeBack_eq_some (r := (inp t).access) (geometry p) h.needs
      refine ⟨h.valid, _, hw, ?_⟩
      rw [h.writes, hw]
      rfl
  · intro t a d hw
    have hf := flush_of_memWrite (hb t) (by rw [hw]; rfl)
    rw [(inStep_of_flush hh hb hf).memWrite_eq hh hf] at hw
    exact lastWrite_of_writeBack (geometry p) (fun _ => rfl) hw
  · intro u v huv hu hv
    by_contra hnone
    have hno : ∀ w, u ≤ w → w < v → accepts inp w = false := by
      intro w h₁ h₂
      rw [Bool.eq_false_iff]
      intro ha
      exact hnone ⟨w, h₁, h₂, ha⟩
    have hf := flush_of_memWrite (hb u) hu
    have hahead := (inStep_of_flush hh hb hf).flush hh hf
    have hend := ahead_of_no_accept hh hb (Nat.succ_le_of_lt huv) hahead
      fun w h₁ h₂ => hno w (Nat.le_of_succ_le h₁) h₂
    have hf' := flush_of_memWrite (hb v) hv
    rw [not_flush_of_idle hend.flush] at hf'
    cases hf'
  · intro t
    exact run_mem_store

end Traffic

section Demonstration

set_option maxRecDepth 4000

/-- A write of 7 to address 0 and a write of 9 to address 16, which evicts it. -/
def evictingRun : ℕ → Inputs defaultParams
  | 0 => { idleInputs with m2sValid := true, m2sIsWrite := true, m2sWdata := 7 }
  | t + 1 => { idleInputs with
      m2sValid := t < 3, m2sIsWrite := true, m2sAddr := 16, m2sTag := 1, m2sWdata := 9 }

theorem holdsAddress_evictingRun : HoldsAddress evictingRun := by
  intro t
  by_cases ht : t < 4
  · revert t
    decide
  · obtain ⟨u, rfl⟩ := Nat.exists_eq_add_of_le' (Nat.le_of_not_lt ht)
    rintro ⟨hv, _⟩
    simp only [evictingRun, decide_eq_true_eq] at hv
    omega

theorem writeback_traffic_evictingRun :
    LastWrite (history (acceptedAccess evictingRun) 2) 0 7 :=
  (writeback_traffic holdsAddress_evictingRun fun | 0 => rfl | _ + 1 => rfl).2.1 2 0 7
    (by decide)

end Demonstration

end CxlLite.Engine
