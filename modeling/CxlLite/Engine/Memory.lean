import CxlLite.Engine.Slots
import CxlLite.Storage.FlatMemory

/-!
# The engine as a flat memory

The view of the cache lines over the backing memory equals the flat memory of
the accepted writes. A started flush still finds the line it was started for,
because a stalled host keeps its address.
-/

namespace CxlLite.Engine

open DirectMapped

variable {p : Params}

section Lookup

variable {s : State p} {i : Inputs p}

theorem cacheHit_iff {a : p.Addr} :
    s.cacheHit a = true ↔ Resident (geometry p) s.cache a := by
  simp [State.cacheHit, Resident, geometry]

theorem cacheHit_eq_false_iff {a : p.Addr} :
    s.cacheHit a = false ↔ ¬ Resident (geometry p) s.cache a := by
  rw [← cacheHit_iff, Bool.not_eq_true]

theorem needEvictWriteback_iff :
    s.needEvictWriteback i = true ↔
      i.cacheBypassEn = false ∧ NeedsWriteBack (geometry p) s.cache i.m2sAddr := by
  simp only [State.needEvictWriteback, NeedsWriteBack, ← cacheHit_iff, Bool.and_eq_true,
    Bool.not_eq_true', Bool.not_eq_true, and_assoc]
  rfl

theorem acceptLine_valid : (s.acceptLine i).valid = true := rfl

theorem acceptLine_tag : (s.acceptLine i).tag = (geometry p).tag i.m2sAddr := rfl

theorem acceptLine_of_write (h : i.m2sIsWrite = true) :
    (s.acceptLine i).data = i.m2sWdata ∧ (s.acceptLine i).dirty = true := by
  simp [State.acceptLine, h]

theorem acceptLine_of_miss (hw : i.m2sIsWrite = false)
    (h : ¬ Resident (geometry p) s.cache i.m2sAddr) :
    (s.acceptLine i).data = s.mem i.m2sAddr := by
  simp [State.acceptLine, hw, cacheHit_eq_false_iff.mpr h]

/-- A read hit leaves the line as it is. -/
theorem acceptLine_of_hit (hw : i.m2sIsWrite = false)
    (h : Resident (geometry p) s.cache i.m2sAddr) :
    s.acceptLine i = s.cache (idxField i.m2sAddr) := by
  obtain ⟨hv, ht⟩ := h
  have hv' : true = (s.cache (idxField i.m2sAddr)).valid := hv.symm
  have ht' : tagField i.m2sAddr = (s.cache (idxField i.m2sAddr)).tag := ht.symm
  simp only [State.acceptLine, hw, cacheHit_iff.mpr ⟨hv, ht⟩, Bool.not_true, if_neg, ht',
    Bool.false_eq_true, not_false_eq_true]
  rw [hv']

theorem cacheNext_of_flush (h : s.doFlushWriteThisCycle = true) :
    s.cacheNext i = Function.update s.cache (idxField i.m2sAddr)
      { s.cache (idxField i.m2sAddr) with dirty := false } := if_pos h

theorem memNext_of_flush (h : s.doFlushWriteThisCycle = true) :
    s.memNext i = Function.update s.mem (s.flushAddr i) (s.cache (idxField i.m2sAddr)).data :=
  if_pos h

theorem cacheNext_of_accept (h : s.acceptThisCycle i = true) (hb : i.cacheBypassEn = false) :
    s.cacheNext i = Function.update s.cache (idxField i.m2sAddr) (s.acceptLine i) := by
  simp [State.cacheNext, not_flush_of_accept h, h, hb]

theorem memNext_of_accept (h : s.acceptThisCycle i = true) (hb : i.cacheBypassEn = false) :
    s.memNext i = s.mem := by
  simp [State.memNext, not_flush_of_accept h, hb]

theorem cacheNext_of_bypass (h : s.doFlushWriteThisCycle = false)
    (hb : i.cacheBypassEn = true) : s.cacheNext i = s.cache := by
  simp [State.cacheNext, h, hb]

theorem memNext_of_bypass_write (h : s.acceptThisCycle i = true) (hb : i.cacheBypassEn = true)
    (hw : i.m2sIsWrite = true) :
    s.memNext i = Function.update s.mem i.m2sAddr i.m2sWdata := by
  simp [State.memNext, not_flush_of_accept h, h, hb, hw]

theorem memNext_of_read (h : s.doFlushWriteThisCycle = false) (hw : i.m2sIsWrite = false) :
    s.memNext i = s.mem := by
  simp [State.memNext, h, hw]

/-- A cycle without flush and acceptance leaves cache and memory alone. -/
theorem storage_of_idle (hf : s.doFlushWriteThisCycle = false)
    (ha : s.acceptThisCycle i = false) : s.cacheNext i = s.cache ∧ s.memNext i = s.mem := by
  simp [State.cacheNext, State.memNext, hf, ha]

end Lookup

section Flat

variable (inp : ℕ → Inputs p)

/-- The write accepted in cycle `t`, if any. -/
def acceptedWrite (t : ℕ) : Option (p.Addr × p.Data) :=
  if accepts inp t && (inp t).m2sIsWrite then some ((inp t).m2sAddr, (inp t).m2sWdata) else none

/-- The data of the last write to `a` accepted before cycle `t`, and 0 if there is none. -/
def lastWritten (t : ℕ) (a : p.Addr) : p.Data := FlatMemory.contents (acceptedWrite inp) 0 t a

/-- A bypassed write never reaches an address that the cache holds. -/
def BypassedWritesMiss : Prop :=
  ∀ t, accepts inp t = true → (inp t).cacheBypassEn = true → (inp t).m2sIsWrite = true →
    (run inp t).cacheHit (inp t).m2sAddr = false

/-- Bypassed reads avoid dirty resident lines and bypassed writes avoid resident lines. -/
def BypassDiscipline : Prop :=
  BypassedWritesMiss inp ∧
    ∀ t, accepts inp t = true → (inp t).cacheBypassEn = true → (inp t).m2sIsWrite = false →
      (run inp t).cacheHit (inp t).m2sAddr = true →
        ((run inp t).cache (idxField (inp t).m2sAddr)).dirty = false

/-- Lines and backing memory stand for the flat memory `m`. -/
def State.StandsFor (s : State p) (m : p.Addr → p.Data) : Prop :=
  Coherent (geometry p) s.cache s.mem ∧ view (geometry p) s.cache s.mem = m

/-- The simulation invariant: clean lines agree with the backing memory, the view
is the flat memory of the accepted writes, and an active flush has a line to write back. -/
structure Faithful (t : ℕ) : Prop where
  coherent : Coherent (geometry p) (run inp t).cache (run inp t).mem
  view : view (geometry p) (run inp t).cache (run inp t).mem = lastWritten inp t
  flush : (run inp t).flushState = .active →
    NeedsWriteBack (geometry p) (run inp t).cache (inp t).m2sAddr

end Flat

section Simulation

variable {inp : ℕ → Inputs p} {t : ℕ}

theorem lastWritten_succ_none (h : acceptedWrite inp t = none) :
    lastWritten inp (t + 1) = lastWritten inp t := FlatMemory.contents_succ_none h

theorem lastWritten_succ_of_write (ha : accepts inp t = true)
    (hw : (inp t).m2sIsWrite = true) :
    lastWritten inp (t + 1) =
      Function.update (lastWritten inp t) (inp t).m2sAddr (inp t).m2sWdata :=
  FlatMemory.contents_succ_some (by simp [acceptedWrite, ha, hw])

theorem acceptedWrite_of_read (hw : (inp t).m2sIsWrite = false) : acceptedWrite inp t = none := by
  simp [acceptedWrite, hw]

theorem acceptedWrite_of_not_accepts (ha : accepts inp t = false) :
    acceptedWrite inp t = none := by
  simp [acceptedWrite, ha]

theorem rstN_of_active (h : (run inp t).flushState = .active) : (inp t).rstN = true :=
  rstN_of_not_reset (P := fun s => s.flushState = .active) (fun _ hs => by cases hs) h

theorem rstN_of_active_succ (h : (run inp (t + 1)).flushState = .active) :
    (inp t).rstN = true :=
  rstN_of_not_reset_succ (P := fun s => s.flushState = .active) (fun _ hs => by cases hs) h

/-- An active flush was requested in the cycle before. -/
theorem wantFlush_of_active (h : (run inp (t + 1)).flushState = .active) :
    (run inp t).wantFlush (inp t) = true := by
  rw [run_succ_of_rstN (rstN_of_active_succ h) (rstN_of_active h)] at h
  simp only [State.edge, State.flushStateNext] at h
  cases hf : (run inp t).flushState with
  | idle => simpa [hf] using h
  | active => simp [hf] at h

theorem flushState_zero : (run inp 0).flushState = .idle := by
  rw [run_zero, State.settle]
  split <;> rfl

/-- A flush that is carried out was decided in the cycle before. -/
theorem exists_wantFlush (h : (run inp t).doFlushWriteThisCycle = true) :
    ∃ u, t = u + 1 ∧ (run inp u).wantFlush (inp u) = true := by
  have hactive := flush_iff.mp h
  cases t with
  | zero =>
      rw [flushState_zero] at hactive
      cases hactive
  | succ t => exact ⟨t, rfl, wantFlush_of_active hactive⟩

/-- A started flush finds the line for which it was started. -/
theorem flush_target (hh : HoldsAddress inp) (h : (run inp (t + 1)).flushState = .active) :
    NeedsWriteBack (geometry p) (run inp (t + 1)).cache (inp (t + 1)).m2sAddr := by
  obtain ⟨hidle, _, _, hvalid, hneed⟩ := wantFlush_iff.mp (wantFlush_of_active h)
  have hready : (run inp t).m2sReady (inp t) = false := not_ready_of_need hneed
  have hflush : (run inp t).doFlushWriteThisCycle = false := not_flush_of_idle hidle
  rw [(hh t ⟨hvalid, hready⟩).2, run_cache_succ,
    (storage_of_idle hflush (not_accept_of_not_ready hready)).1]
  exact (needEvictWriteback_iff.mp hneed).2

theorem faithful_zero : Faithful inp 0 where
  coherent := by
    apply coherent_of_invalid
    simp [run_zero, powerOn]
  view := by
    rw [view_of_invalid _ fun i => by simp [run_zero, powerOn], run_zero, State.settle_mem]
    rfl
  flush h := by
    rw [flushState_zero] at h
    cases h

/-- The writeback of a flush does not change what the memory stands for. -/
theorem standsFor_of_flush (hf : Faithful inp t)
    (h : (run inp t).doFlushWriteThisCycle = true) :
    (run inp (t + 1)).StandsFor (lastWritten inp (t + 1)) := by
  have hactive := flush_iff.mp h
  have hacc : accepts inp t = false := not_accept_of_not_ready (not_ready_of_flush h)
  rw [State.StandsFor, run_cache_succ, run_mem_succ, cacheNext_of_flush h, memNext_of_flush h,
    lastWritten_succ_none (acceptedWrite_of_not_accepts hacc), ← hf.view]
  constructor
  · exact coherent_writeBack (geometry p) hf.coherent
  · exact view_writeBack (geometry p) (hf.flush hactive).1

/-- An acceptance with the cache on changes the view by the accepted write only. -/
theorem standsFor_of_accept (hf : Faithful inp t) (ha : accepts inp t = true)
    (hb : (inp t).cacheBypassEn = false) :
    (run inp (t + 1)).StandsFor (lastWritten inp (t + 1)) := by
  have hneed : ¬ NeedsWriteBack (geometry p) (run inp t).cache (inp t).m2sAddr := by
    intro hn
    have hno := (accept_iff.mp ha).2.2.2.2.2
    rw [needEvictWriteback_iff.mpr ⟨hb, hn⟩] at hno
    cases hno
  rw [State.StandsFor, run_cache_succ, run_mem_succ, cacheNext_of_accept ha hb,
    memNext_of_accept ha hb]
  cases hw : (inp t).m2sIsWrite with
  | true =>
      obtain ⟨hdata, hdirty⟩ := acceptLine_of_write (s := run inp t) hw
      rw [lastWritten_succ_of_write ha hw, ← hf.view, ← hdata]
      constructor
      · apply coherent_place (geometry p) hf.coherent acceptLine_valid acceptLine_tag
        intro hclean
        rw [hdirty] at hclean
        cases hclean
      · exact view_place (geometry p) hf.coherent hneed acceptLine_valid acceptLine_tag
  | false =>
      rw [lastWritten_succ_none (acceptedWrite_of_read hw), ← hf.view]
      by_cases hr : Resident (geometry p) (run inp t).cache (inp t).m2sAddr
      · rw [acceptLine_of_hit hw hr, Function.update_eq_self]
        exact ⟨hf.coherent, rfl⟩
      · have hdata := acceptLine_of_miss hw hr
        constructor
        · apply coherent_place (geometry p) hf.coherent acceptLine_valid acceptLine_tag
          intro _
          exact hdata
        · exact view_fill (geometry p) hf.coherent hneed hr acceptLine_valid acceptLine_tag hdata

/-- A bypassed acceptance writes through to the backing memory. -/
theorem standsFor_of_bypass (hm : BypassedWritesMiss inp) (hf : Faithful inp t)
    (ha : accepts inp t = true) (hb : (inp t).cacheBypassEn = true) :
    (run inp (t + 1)).StandsFor (lastWritten inp (t + 1)) := by
  have hflush := not_flush_of_accept ha
  rw [State.StandsFor, run_cache_succ, run_mem_succ, cacheNext_of_bypass hflush hb]
  cases hw : (inp t).m2sIsWrite with
  | true =>
      have hr := cacheHit_eq_false_iff.mp (hm t ha hb hw)
      rw [memNext_of_bypass_write ha hb hw, lastWritten_succ_of_write ha hw, ← hf.view]
      constructor
      · exact coherent_storeThrough (geometry p) hf.coherent hr
      · exact view_storeThrough (geometry p) hr
  | false =>
      rw [memNext_of_read hflush hw, lastWritten_succ_none (acceptedWrite_of_read hw)]
      exact ⟨hf.coherent, hf.view⟩

/-- The flat memory is followed through every kind of cycle. -/
theorem standsFor_succ (hm : BypassedWritesMiss inp) (hf : Faithful inp t) :
    (run inp (t + 1)).StandsFor (lastWritten inp (t + 1)) := by
  cases ha : accepts inp t with
  | true =>
      cases hb : (inp t).cacheBypassEn with
      | true => exact standsFor_of_bypass hm hf ha hb
      | false => exact standsFor_of_accept hf ha hb
  | false =>
      cases hflush : (run inp t).doFlushWriteThisCycle with
      | true => exact standsFor_of_flush hf hflush
      | false =>
          obtain ⟨hc, hmem⟩ := storage_of_idle hflush ha
          rw [State.StandsFor, run_cache_succ, run_mem_succ, hc, hmem,
            lastWritten_succ_none (acceptedWrite_of_not_accepts ha)]
          exact ⟨hf.coherent, hf.view⟩

theorem faithful_succ (hh : HoldsAddress inp) (hm : BypassedWritesMiss inp)
    (hf : Faithful inp t) : Faithful inp (t + 1) where
  coherent := (standsFor_succ hm hf).1
  view := (standsFor_succ hm hf).2
  flush := flush_target hh

/-- The simulation invariant holds in every cycle. -/
theorem run_faithful (hh : HoldsAddress inp) (hm : BypassedWritesMiss inp) (t : ℕ) :
    Faithful inp t := by
  induction t with
  | zero => exact faithful_zero
  | succ t ih => exact faithful_succ hh hm ih

/-- What an accepted read captures: the backing word when bypass hides a dirty
line, and the last write otherwise. -/
theorem readCapture_eq (hf : Faithful inp t) :
    (run inp t).readCapture (inp t) =
      if (inp t).cacheBypassEn = true ∧ (run inp t).cacheHit (inp t).m2sAddr = true ∧
          ((run inp t).cache (idxField (inp t).m2sAddr)).dirty = true then
        (run inp t).mem (inp t).m2sAddr
      else lastWritten inp t (inp t).m2sAddr := by
  rw [← hf.view]
  rw [State.readCapture, State.cacheHitEff]
  by_cases hr : Resident (geometry p) (run inp t).cache (inp t).m2sAddr
  · have hview : view (geometry p) (run inp t).cache (run inp t).mem (inp t).m2sAddr =
        ((run inp t).cache (idxField (inp t).m2sAddr)).data := view_of_resident _ hr
    rw [cacheHit_iff.mpr hr]
    cases hb : (inp t).cacheBypassEn with
    | false => simp [hview]
    | true =>
        cases hd : ((run inp t).cache (idxField (inp t).m2sAddr)).dirty with
        | true => simp
        | false => simpa using (view_eq_mem _ hf.coherent fun _ => hd).symm
  · rw [cacheHit_eq_false_iff.mpr hr, view_of_not_resident _ hr]
    simp

end Simulation

end CxlLite.Engine
