import CxlLite.Engine.Memory

/-!
# The data of read responses

A read response carries the last write to its address that was accepted before
the read. The exception is a bypassed read of a dirty line: it is served from
the backing memory, where that write has not arrived yet.
-/

namespace CxlLite.Engine

open Synchronous

variable {p : Params}

section Statements

variable (inp : ℕ → Inputs p)

/-- The request accepted in cycle `u` is the one that the response offered in
cycle `t` answers. -/
def Answers (t u : ℕ) : Prop :=
  Open (AcceptsTag inp (run inp t).s2mTag) (ConsumesTag inp (run inp t).s2mTag) u t

/-- Every offered read response carries the last write to the address of its
request accepted before that request, and 0 if there was none. -/
def ReadsLastWrite : Prop :=
  ∀ t, (run inp t).s2mValid = true → (run inp t).s2mIsData = true →
    ∃ u, Answers inp t u ∧ (inp u).m2sIsWrite = false ∧
      FlatMemory.IsLast (acceptedWrite inp) 0 u (inp u).m2sAddr (run inp t).s2mRdata

/-- No write is accepted while bypass is high. -/
def NoBypassedWrite : Prop :=
  ∀ t, accepts inp t = true → (inp t).cacheBypassEn = true → (inp t).m2sIsWrite = false

/-- The read accepted in cycle `u` is bypassed although the cache holds its
address in a dirty line. -/
def BypassesDirty (u : ℕ) : Prop :=
  (inp u).cacheBypassEn = true ∧ (run inp u).cacheHit (inp u).m2sAddr = true ∧
    ((run inp u).cache (idxField (inp u).m2sAddr)).dirty = true

end Statements

variable {inp : ℕ → Inputs p}

theorem NoBypassedWrite.bypassedWritesMiss (h : NoBypassedWrite inp) :
    BypassedWritesMiss inp := by
  intro t ha hb hw
  rw [h t ha hb] at hw
  cases hw

/-- An offered read response carries what its request captured. -/
theorem offered_read {t : ℕ} (hv : (run inp t).s2mValid = true)
    (hd : (run inp t).s2mIsData = true) :
    ∃ u, Answers inp t u ∧ (inp u).m2sIsWrite = false ∧
      (run inp t).s2mRdata = (run inp u).readCapture (inp u) := by
  obtain ⟨u, hu⟩ := offered_open inp hv
  obtain ⟨hisData, hcap⟩ := offered_payload inp hu
  have hread : (inp u).m2sIsWrite = false := by simpa [hd] using hisData
  exact ⟨u, hu, hread, hcap hread⟩

theorem Answers.accepts {t u : ℕ} (h : Answers inp t u) : accepts inp u = true := h.2.1.1

section Bypass

theorem lines_invalid_of_bypass (hb : ∀ t, (inp t).cacheBypassEn = true) (t : ℕ) (i : p.Idx) :
    ((run inp t).cache i).valid = false := by
  induction t with
  | zero => simp [run_zero, powerOn]
  | succ t ih =>
      rw [run_cache_succ]
      cases hflush : (run inp t).doFlushWriteThisCycle with
      | true =>
          rw [cacheNext_of_flush hflush]
          by_cases hi : i = idxField (inp t).m2sAddr
          · subst hi
            rwa [Function.update_self]
          · rwa [Function.update_of_ne hi]
      | false => rwa [cacheNext_of_bypass hflush (hb t)]

/-- A bypass input that never changes meets the discipline. -/
theorem bypassDiscipline_of_constant {b : Bool} (hb : ∀ t, (inp t).cacheBypassEn = b) :
    BypassDiscipline inp := by
  cases b with
  | false =>
      constructor <;>
      · intro t _ h
        rw [hb t] at h
        cases h
  | true =>
      have hmiss : ∀ t, (run inp t).cacheHit (inp t).m2sAddr = false := by
        intro t
        simp [State.cacheHit, lines_invalid_of_bypass hb t]
      constructor
      · intro t _ _ _
        exact hmiss t
      · intro t _ _ _ h
        rw [hmiss t] at h
        cases h

end Bypass

section Demonstration

set_option maxRecDepth 4000

/-- A cached write of 7 to address 16, then a read of it with bypass set to `b`. -/
def writeThenRead (b : Bool) : ℕ → Inputs defaultParams
  | 0 => { idleInputs with
      m2sValid := true, m2sIsWrite := true, m2sAddr := 16, m2sWdata := 7, s2mReady := true }
  | 1 => { idleInputs with
      m2sValid := true, m2sAddr := 16, m2sTag := 1, s2mReady := true, cacheBypassEn := b }
  | _ => { idleInputs with s2mReady := true }

theorem holdsRequest_writeThenRead (b : Bool) : HoldsRequest (writeThenRead b)
  | 0, h => by revert h b; decide
  | 1, h => by revert h b; decide
  | _ + 2, h => by simp [Stalled, writeThenRead, idleInputs] at h

theorem noBypassedWrite_writeThenRead (b : Bool) : NoBypassedWrite (writeThenRead b)
  | 0, _, h => by simp [writeThenRead, idleInputs] at h
  | 1, _, _ => rfl
  | _ + 2, _, _ => rfl

/-- The read of `writeThenRead` with bypass is answered in cycle 6, from the backing memory. -/
theorem response_writeThenRead :
    (run (writeThenRead true) 6).s2mValid = true ∧ (run (writeThenRead true) 6).s2mTag = 1 ∧
      (run (writeThenRead true) 6).s2mIsData = true ∧
      (run (writeThenRead true) 6).s2mRdata = 0 := by
  decide

theorem accepts_writeThenRead :
    ∀ u < 6, accepts (writeThenRead true) u = true → (writeThenRead true u).m2sTag = 1 → u = 1 := by
  decide

end Demonstration

/-- The engine refines a flat memory: under a host that holds a stalled
request, and a bypass input that is constant or disciplined, every read
response carries the last write accepted before its read. -/
theorem reads_last_write (hh : HoldsRequest inp)
    (hb : BypassDiscipline inp ∨ ∃ b, ∀ t, (inp t).cacheBypassEn = b) : ReadsLastWrite inp := by
  have hdisc : BypassDiscipline inp := by
    rcases hb with h | ⟨b, h⟩
    · exact h
    · exact bypassDiscipline_of_constant h
  intro t hv hd
  obtain ⟨u, hu, hread, hcap⟩ := offered_read hv hd
  refine ⟨u, hu, hread, ?_⟩
  have hnot : ¬ ((inp u).cacheBypassEn = true ∧ (run inp u).cacheHit (inp u).m2sAddr = true ∧
      ((run inp u).cache (idxField (inp u).m2sAddr)).dirty = true) := by
    rintro ⟨hby, hhit, hdirty⟩
    have hclean := hdisc.2 u hu.accepts hby hread hhit
    simp [hclean] at hdirty
  rw [hcap, readCapture_eq (run_faithful hh.holdsAddress hdisc.1 u), if_neg hnot]
  exact FlatMemory.contents_isLast u _

theorem reads_last_write_writeThenRead :
    (run (writeThenRead false) 4).s2mValid = true ∧
      (run (writeThenRead false) 4).s2mIsData = true ∧ ReadsLastWrite (writeThenRead false) :=
  ⟨by decide, by decide, reads_last_write (holdsRequest_writeThenRead false)
    (Or.inr ⟨false, fun | 0 => rfl | 1 => rfl | _ + 2 => rfl⟩)⟩

/-- A bypassed read of a dirty resident line misses the write that the line holds. -/
theorem not_reads_last_write_of_noBypassedWrite :
    ¬ ∀ inp : ℕ → Inputs defaultParams,
      HoldsRequest inp → NoBypassedWrite inp → ReadsLastWrite inp := by
  intro h
  obtain ⟨hvalid, htag, hisData, hrdata⟩ := response_writeThenRead
  obtain ⟨u, ⟨hu6, ⟨hacc, hut⟩, _⟩, _, hlast⟩ := h _ (holdsRequest_writeThenRead true)
    (noBypassedWrite_writeThenRead true) 6 hvalid hisData
  obtain rfl := accepts_writeThenRead u hu6 hacc (hut.trans htag)
  have hseven : lastWritten (writeThenRead true) 1 16 = 7 := by decide
  have hzero := hlast.unique (FlatMemory.contents_isLast 1 (writeThenRead true 1).m2sAddr)
  have hcontra : (0 : BitVec 32) = 7 := (hrdata.symm.trans hzero).trans hseven
  exact absurd hcontra (by decide)

/-- With no write accepted under bypass, a read response carries the last write
accepted before its read, except that a bypassed read of a dirty resident line
carries the backing word that the line hides. -/
theorem bypassed_read_data (hh : HoldsRequest inp) (hb : NoBypassedWrite inp) :
    ∀ t, (run inp t).s2mValid = true → (run inp t).s2mIsData = true →
      ∃ u, Answers inp t u ∧ (inp u).m2sIsWrite = false ∧
        (¬ BypassesDirty inp u →
          FlatMemory.IsLast (acceptedWrite inp) 0 u (inp u).m2sAddr (run inp t).s2mRdata) ∧
        (BypassesDirty inp u → (run inp t).s2mRdata = (run inp u).mem (inp u).m2sAddr) := by
  intro t hv hd
  obtain ⟨u, hu, hread, hcap⟩ := offered_read hv hd
  have hf := run_faithful hh.holdsAddress hb.bypassedWritesMiss u
  refine ⟨u, hu, hread, ?_, ?_⟩
  · intro hnot
    rw [BypassesDirty] at hnot
    rw [hcap, readCapture_eq hf, if_neg hnot]
    exact FlatMemory.contents_isLast u _
  · intro hdirty
    rw [BypassesDirty] at hdirty
    rw [hcap, readCapture_eq hf, if_pos hdirty]

theorem bypassed_read_data_writeThenRead :
    ∃ u, Answers (writeThenRead true) 6 u ∧ (writeThenRead true u).m2sIsWrite = false ∧
      (¬ BypassesDirty (writeThenRead true) u →
        FlatMemory.IsLast (acceptedWrite (writeThenRead true)) 0 u (writeThenRead true u).m2sAddr
          (run (writeThenRead true) 6).s2mRdata) ∧
      (BypassesDirty (writeThenRead true) u → (run (writeThenRead true) 6).s2mRdata =
        (run (writeThenRead true) u).mem (writeThenRead true u).m2sAddr) :=
  bypassed_read_data (holdsRequest_writeThenRead true) (noBypassedWrite_writeThenRead true) 6
    response_writeThenRead.1 response_writeThenRead.2.2.1

end CxlLite.Engine
