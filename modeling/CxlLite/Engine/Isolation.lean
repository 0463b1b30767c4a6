import CxlLite.Engine.ReadData
import CxlLite.Storage.OneAddress

/-!
# Addresses do not disturb each other

A careless use of bypass harms the address it is used for. For the other
addresses, also those that share the line, the engine is a flat memory as before.
-/

namespace CxlLite.Engine

open DirectMapped

variable {p : Params}

section Statements

variable (inp : ℕ → Inputs p)

/-- Bypassed writes to `a` find it absent from the cache, and bypassed reads of
`a` find it absent or clean. Nothing is asked of the other addresses. -/
structure CarefulAt (a : p.Addr) : Prop where
  write : ∀ t, accepts inp t = true → (inp t).cacheBypassEn = true →
    (inp t).m2sIsWrite = true → (inp t).m2sAddr = a → (run inp t).cacheHit a = false
  read : ∀ t, accepts inp t = true → (inp t).cacheBypassEn = true →
    (inp t).m2sIsWrite = false → (inp t).m2sAddr = a → (run inp t).cacheHit a = true →
      ((run inp t).cache (idxField a)).dirty = false

/-- Every offered response to a read of `a` carries the last write to `a`
accepted before that read. -/
def ReadsLastWriteAt (a : p.Addr) : Prop :=
  ∀ t u, (run inp t).s2mValid = true → Answers inp t u → (inp u).m2sIsWrite = false →
    (inp u).m2sAddr = a →
      FlatMemory.IsLast (acceptedWrite inp) 0 u a (run inp t).s2mRdata

/-- What cache and memory say about `a`. -/
def StandsAtRun (a : p.Addr) (t : ℕ) : Prop :=
  StandsAt (geometry p) (run inp t).cache (run inp t).mem a (lastWritten inp t a)

end Statements

section Steps

variable {inp : ℕ → Inputs p} {t : ℕ} {a : p.Addr}

theorem lastWritten_succ_of_ne (h : (inp t).m2sAddr ≠ a) :
    lastWritten inp (t + 1) a = lastWritten inp t a := by
  apply FlatMemory.contents_succ_of_ne
  intro d hd
  rw [acceptedWrite] at hd
  split at hd
  · exact h (Prod.mk.inj (Option.some.inj hd)).1
  · cases hd

theorem lastWritten_succ_of_quiet (h : accepts inp t = false) :
    lastWritten inp (t + 1) a = lastWritten inp t a :=
  congrFun (lastWritten_succ_none (acceptedWrite_of_not_accepts h)) a

/-- A carried out flush finds a valid line. -/
theorem valid_of_flush (hh : HoldsAddress inp) (h : (run inp t).doFlushWriteThisCycle = true) :
    ((run inp t).cache (idxField (inp t).m2sAddr)).valid = true := by
  obtain ⟨u, rfl, _⟩ := exists_wantFlush h
  exact (flush_target hh (flush_iff.mp h)).1

theorem standsAtRun_of_flush (hh : HoldsAddress inp) (hs : StandsAtRun inp a t)
    (h : (run inp t).doFlushWriteThisCycle = true) : StandsAtRun inp a (t + 1) := by
  have hacc : accepts inp t = false := not_accept_of_not_ready (not_ready_of_flush h)
  rw [StandsAtRun, run_cache_succ, run_mem_succ, cacheNext_of_flush h, memNext_of_flush h,
    lastWritten_succ_of_quiet hacc]
  exact hs.writeBack (valid_of_flush hh h)

/-- An acceptance with the cache on finds nothing left to write back. -/
theorem not_needsWriteBack_of_accepts (ha : accepts inp t = true)
    (hb : (inp t).cacheBypassEn = false) :
    ¬ NeedsWriteBack (geometry p) (run inp t).cache (inp t).m2sAddr := by
  intro hn
  have hno := (accept_iff.mp ha).2.2.2.2.2
  rw [needEvictWriteback_iff.mpr ⟨hb, hn⟩] at hno
  cases hno

theorem standsAtRun_of_accept (hs : StandsAtRun inp a t) (ha : accepts inp t = true)
    (hb : (inp t).cacheBypassEn = false) : StandsAtRun inp a (t + 1) := by
  rw [StandsAtRun, run_cache_succ, run_mem_succ, cacheNext_of_accept ha hb,
    memNext_of_accept ha hb]
  by_cases haddr : (inp t).m2sAddr = a
  · subst haddr
    cases hw : (inp t).m2sIsWrite with
    | true =>
        obtain ⟨hdata, hdirty⟩ := acceptLine_of_write (s := run inp t) hw
        rw [lastWritten_succ_of_write ha hw, Function.update_self, ← hdata]
        apply StandsAt.place_self acceptLine_valid acceptLine_tag
        intro hclean
        rw [hdirty] at hclean
        cases hclean
    | false =>
        rw [congrFun (lastWritten_succ_none (acceptedWrite_of_read hw)) _]
        by_cases hr : Resident (geometry p) (run inp t).cache (inp t).m2sAddr
        · rw [acceptLine_of_hit hw hr, Function.update_eq_self]
          exact hs
        · have hdata := acceptLine_of_miss hw hr
          have hlast : (run inp t).mem (inp t).m2sAddr = lastWritten inp t (inp t).m2sAddr :=
            hs.mem_eq fun h => absurd h hr
          rw [← hlast, ← hdata]
          apply StandsAt.place_self acceptLine_valid acceptLine_tag
          intro _
          exact hdata
  · rw [lastWritten_succ_of_ne haddr]
    exact hs.place_other haddr (not_needsWriteBack_of_accepts ha hb) acceptLine_valid
      acceptLine_tag

theorem standsAtRun_of_bypass (hc : CarefulAt inp a) (hs : StandsAtRun inp a t)
    (ha : accepts inp t = true) (hb : (inp t).cacheBypassEn = true) :
    StandsAtRun inp a (t + 1) := by
  have hflush := not_flush_of_accept ha
  rw [StandsAtRun, run_cache_succ, run_mem_succ, cacheNext_of_bypass hflush hb]
  cases hw : (inp t).m2sIsWrite with
  | false =>
      rw [memNext_of_read hflush hw, congrFun (lastWritten_succ_none (acceptedWrite_of_read hw)) _]
      exact hs
  | true =>
      rw [memNext_of_bypass_write ha hb hw]
      by_cases haddr : (inp t).m2sAddr = a
      · subst haddr
        rw [lastWritten_succ_of_write ha hw, Function.update_self]
        exact StandsAt.store_self (cacheHit_eq_false_iff.mp (hc.write t ha hb hw rfl))
      · rw [lastWritten_succ_of_ne haddr]
        exact hs.store_other haddr _

theorem standsAtRun_succ (hh : HoldsAddress inp) (hc : CarefulAt inp a)
    (hs : StandsAtRun inp a t) : StandsAtRun inp a (t + 1) := by
  cases ha : accepts inp t with
  | true =>
      cases hb : (inp t).cacheBypassEn with
      | true => exact standsAtRun_of_bypass hc hs ha hb
      | false => exact standsAtRun_of_accept hs ha hb
  | false =>
      cases hflush : (run inp t).doFlushWriteThisCycle with
      | true => exact standsAtRun_of_flush hh hs hflush
      | false =>
          obtain ⟨hcache, hmem⟩ := storage_of_idle hflush ha
          rw [StandsAtRun, run_cache_succ, run_mem_succ, hcache, hmem,
            lastWritten_succ_of_quiet ha]
          exact hs

theorem run_standsAt (hh : HoldsAddress inp) (hc : CarefulAt inp a) (t : ℕ) :
    StandsAtRun inp a t := by
  induction t with
  | zero =>
      rw [StandsAtRun, run_zero, State.settle_cache, State.settle_mem]
      exact StandsAt.of_invalid fun _ => rfl
  | succ t ih => exact standsAtRun_succ hh hc ih

/-- What a read of a carefully used address captures. -/
theorem readCapture_at (hh : HoldsAddress inp) (hc : CarefulAt inp (inp t).m2sAddr)
    (ha : accepts inp t = true) (hw : (inp t).m2sIsWrite = false) :
    (run inp t).readCapture (inp t) = lastWritten inp t (inp t).m2sAddr := by
  have hs := run_standsAt hh hc t
  rw [State.readCapture, State.cacheHitEff]
  split
  case isTrue hhit =>
    exact hs.data_of_resident (cacheHit_iff.mp (Bool.and_eq_true_iff.mp hhit).1)
  case isFalse hmiss =>
    apply hs.mem_eq
    intro hr
    have hhit := cacheHit_iff.mpr hr
    cases hb : (inp t).cacheBypassEn with
    | false => simp [hhit, hb] at hmiss
    | true => exact hc.read t ha hb hw rfl hhit

end Steps

/-- A careless use of bypass stays where it is made. Under a host that holds the
address of a stalled request, the reads of every carefully used address return its
last write, whatever is done to the other addresses: stale lines, lost writes and
evictions there never reach it. -/
theorem addresses_isolated {inp : ℕ → Inputs p} (hh : HoldsAddress inp) {a : p.Addr}
    (hc : CarefulAt inp a) : ReadsLastWriteAt inp a := by
  rintro t u _ hu hw rfl
  rw [(offered_payload inp hu).2 hw, readCapture_at hh hc hu.accepts hw]
  exact FlatMemory.contents_isLast u _

section Demonstration

set_option maxRecDepth 4000

/-- A cached and a bypassed write to address 16, then a read of address 32, which
shares its line. -/
def carelessWrite : ℕ → Inputs defaultParams
  | 0 => { idleInputs with m2sValid := true, m2sIsWrite := true, m2sAddr := 16, m2sWdata := 7 }
  | 1 => { idleInputs with
      m2sValid := true, m2sIsWrite := true, m2sAddr := 16, m2sTag := 1, m2sWdata := 9
      cacheBypassEn := true }
  | t + 2 => { idleInputs with m2sValid := t < 3, m2sAddr := 32, m2sTag := 2 }

theorem holdsAddress_carelessWrite : HoldsAddress carelessWrite
  | 0, h => by revert h; decide
  | 1, h => by revert h; decide
  | 2, h => by revert h; decide
  | 3, h => by revert h; decide
  | 4, h => by revert h; decide
  | t + 5, h => by
      have hv : decide (t + 3 < 3) = true := h.1
      simp at hv

/-- The bypassed write to 16 finds it resident, and address 32 is used with care. -/
theorem addresses_isolated_carelessWrite :
    ¬ CarefulAt carelessWrite 16 ∧ ReadsLastWriteAt carelessWrite 32 := by
  constructor
  · intro h
    exact absurd (h.write 1 (by decide) rfl rfl rfl) (by decide)
  · apply addresses_isolated holdsAddress_carelessWrite
    constructor
    · rintro (_ | _ | t) _ hb _ haddr
      · cases hb
      · exact absurd haddr (by decide)
      · cases hb
    · rintro (_ | _ | t) _ hb _ haddr
      · cases hb
      · exact absurd haddr (by decide)
      · cases hb

end Demonstration

end CxlLite.Engine
