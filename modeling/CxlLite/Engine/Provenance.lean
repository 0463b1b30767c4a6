import CxlLite.Engine.ReadData

/-!
# Where the data of a response comes from

Lines and backing memory only ever hold words that were written to the address
they stand for. No rule for the host is needed: an eviction whose request goes
away, a reset in the middle of a transaction or a careless use of bypass can make
a word stale, but never bring it to another address.
-/

namespace CxlLite.Engine

open DirectMapped

variable {p : Params}

section Statements

variable (inp : ℕ → Inputs p)

/-- `d` is the initial word, or a write of `d` to `a` was accepted before cycle `t`. -/
def Written (t : ℕ) (a : p.Addr) (d : p.Data) : Prop :=
  d = 0 ∨ ∃ u, u < t ∧ acceptedWrite inp u = some (a, d)

/-- Every line and every backing word holds a word that was written to its address. -/
structure Sourced (t : ℕ) : Prop where
  lines : ∀ k, Written inp t (lineAddr ((run inp t).cache k).tag k) ((run inp t).cache k).data
  mem : ∀ a, Written inp t a ((run inp t).mem a)

/-- Every offered read response carries a word that an earlier accepted request
wrote to the address of its own request, or the initial word. -/
def ReadsWrittenWords : Prop :=
  ∀ t, (run inp t).s2mValid = true → (run inp t).s2mIsData = true →
    ∃ u, Answers inp t u ∧ (inp u).m2sIsWrite = false ∧
      Written inp u (inp u).m2sAddr (run inp t).s2mRdata

end Statements

variable {inp : ℕ → Inputs p} {t : ℕ} {a : p.Addr} {d : p.Data}

theorem Written.succ (h : Written inp t a d) : Written inp (t + 1) a d := by
  rcases h with h | ⟨u, hu, hw⟩
  · exact Or.inl h
  · exact Or.inr ⟨u, Nat.lt_succ_of_lt hu, hw⟩

theorem written_of_accepts (ha : accepts inp t = true) (hw : (inp t).m2sIsWrite = true) :
    Written inp (t + 1) (inp t).m2sAddr (inp t).m2sWdata :=
  Or.inr ⟨t, Nat.lt_succ_self t, by simp [acceptedWrite, ha, hw]⟩

section Steps

/-- A line that hits holds a word of the requested address. -/
theorem Sourced.line_of_hit (h : Sourced inp t) (hhit : (run inp t).cacheHit a = true) :
    Written inp t a ((run inp t).cache (idxField a)).data := by
  have hline := h.lines (idxField a)
  have haddr : lineAddr ((run inp t).cache (idxField a)).tag (idxField a) = a :=
    addr_of_resident (geometry p) (cacheHit_iff.mp hhit)
  rwa [haddr] at hline

/-- The line that an acceptance leaves holds a word of the accepted address. -/
theorem Sourced.acceptLine (h : Sourced inp t) (ha : accepts inp t = true) :
    Written inp (t + 1) (inp t).m2sAddr ((run inp t).acceptLine (inp t)).data := by
  cases hw : (inp t).m2sIsWrite with
  | true =>
      rw [(acceptLine_of_write (s := run inp t) hw).1]
      exact written_of_accepts ha hw
  | false =>
      by_cases hr : Resident (geometry p) (run inp t).cache (inp t).m2sAddr
      · rw [acceptLine_of_hit hw hr]
        exact (h.line_of_hit (cacheHit_iff.mpr hr)).succ
      · rw [acceptLine_of_miss hw hr]
        exact (h.mem _).succ

theorem sourced_zero : Sourced inp 0 where
  lines k := by
    rw [run_zero, State.settle_cache]
    exact Or.inl rfl
  mem a := by
    rw [run_zero, State.settle_mem]
    exact Or.inl rfl

theorem Sourced.lines_succ (h : Sourced inp t) (k : p.Idx) :
    Written inp (t + 1) (lineAddr ((run inp (t + 1)).cache k).tag k)
      ((run inp (t + 1)).cache k).data := by
  rw [run_cache_succ, State.cacheNext]
  split
  case isTrue hflush =>
    by_cases hk : k = idxField (inp t).m2sAddr
    · subst hk
      rw [Function.update_self]
      exact (h.lines _).succ
    · rw [Function.update_of_ne hk]
      exact (h.lines k).succ
  case isFalse hflush =>
    split
    case isTrue hacc =>
      by_cases hk : k = idxField (inp t).m2sAddr
      · subst hk
        rw [Function.update_self, acceptLine_tag]
        change Written inp (t + 1) (lineAddr (tagField _) (idxField _)) _
        rw [lineAddr_fields]
        exact h.acceptLine (Bool.and_eq_true_iff.mp hacc).1
      · rw [Function.update_of_ne hk]
        exact (h.lines k).succ
    case isFalse => exact (h.lines k).succ

theorem Sourced.mem_succ (h : Sourced inp t) (a : p.Addr) :
    Written inp (t + 1) a ((run inp (t + 1)).mem a) := by
  rw [run_mem_succ, State.memNext]
  split
  case isTrue hflush =>
    -- Whatever line is written back, it goes to its own address.
    by_cases ha : a = (run inp t).flushAddr (inp t)
    · subst ha
      rw [Function.update_self]
      exact (h.lines _).succ
    · rw [Function.update_of_ne ha]
      exact (h.mem a).succ
  case isFalse hflush =>
    split
    case isTrue hacc =>
      obtain ⟨hacc, hw⟩ := Bool.and_eq_true_iff.mp hacc
      by_cases ha : a = (inp t).m2sAddr
      · subst ha
        rw [Function.update_self]
        exact written_of_accepts (Bool.and_eq_true_iff.mp hacc).1 hw
      · rw [Function.update_of_ne ha]
        exact (h.mem a).succ
    case isFalse => exact (h.mem a).succ

/-- The invariant holds in every cycle of every run. -/
theorem run_sourced (inp : ℕ → Inputs p) (t : ℕ) : Sourced inp t := by
  induction t with
  | zero => exact sourced_zero
  | succ t ih => exact ⟨ih.lines_succ, ih.mem_succ⟩

/-- What a read captures was written to its address. -/
theorem readCapture_written (inp : ℕ → Inputs p) (t : ℕ) :
    Written inp t (inp t).m2sAddr ((run inp t).readCapture (inp t)) := by
  have h := run_sourced inp t
  rw [State.readCapture]
  split
  case isTrue hhit => exact h.line_of_hit (Bool.and_eq_true_iff.mp hhit).1
  case isFalse => exact h.mem _

end Steps

/-- No read response is made up. Under completely arbitrary inputs, with a host
that gives up stalled requests, bypass changing at any time and resets in any
cycle, the word that a read returns was written to its address by a request
accepted earlier, or is the initial word. -/
theorem no_thin_air (inp : ℕ → Inputs p) : ReadsWrittenWords inp := by
  intro t hv hd
  obtain ⟨u, hu, hread, hcap⟩ := offered_read hv hd
  refine ⟨u, hu, hread, ?_⟩
  rw [hcap]
  exact readCapture_written inp u

end CxlLite.Engine
