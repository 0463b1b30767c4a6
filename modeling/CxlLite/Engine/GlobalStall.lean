import CxlLite.Engine.BackInvalidate
import CxlLite.Engine.Memory

/-!
# The stall during a Back-Invalidate handshake

The flush write is gated by its own state machine only. It still never falls
into a handshake, since the two machines cannot start on the same edge and
neither starts while the sequencer is busy.
-/

namespace CxlLite.Engine

open Synchronous

variable {p : Params}

/-- Not both the sequencer and the eviction are busy. -/
def State.Exclusive (s : State p) : Prop := s.biState = .idle ∨ s.flushState = .idle

section Edge

variable {s : State p} {i : Inputs p}

/-- A flush is started for a Device-Biased address, and a handshake for a Host-Biased one. -/
theorem wantBi_of_wantFlush (h : s.wantFlush i = true) : s.wantBi i = false := by
  have hbias : s.biasQueryRdData i = false := (wantFlush_iff.mp h).2.2.1
  rw [State.wantBi, hbias, Bool.and_false]

theorem edge_exclusive : (s.edge i).Exclusive := by
  cases hw : s.wantFlush i with
  | true =>
      left
      have hidle := (wantFlush_iff.mp hw).2.1
      simp [State.edge, State.biStateNext, hidle, wantBi_of_wantFlush hw]
  | false =>
      right
      cases hf : s.flushState <;> simp [State.edge, State.flushStateNext, hf, hw]

theorem reset_exclusive (s : State p) : s.reset.Exclusive := Or.inl rfl

theorem settle_exclusive (h : s.Exclusive) : (s.settle i).Exclusive := by
  rw [State.settle]
  split
  · exact h
  · exact reset_exclusive s

theorem step_exclusive : (s.step i).Exclusive := by
  rw [State.step]
  split
  · exact edge_exclusive
  · exact reset_exclusive _

/-- A busy sequencer accepts nothing. -/
theorem not_accept_of_biState (h : s.biState ≠ .idle) : s.acceptThisCycle i = false :=
  not_accept_of_not_ready (not_ready_of_biState h)

/-- The slots and the response register of two states agree. -/
structure SameResponsePath (s s' : State p) : Prop where
  slot : s'.slot = s.slot
  respActive : s'.respActive = s.respActive
  respTag : s'.respTag = s.respTag

/-- The same inputs with no request presented. -/
def Inputs.withoutRequest (i : Inputs p) : Inputs p := { i with m2sValid := false }

theorem SameResponsePath.arb {s' : State p} (h : SameResponsePath s s') : s'.arb = s.arb := by
  have heligible : s'.eligible = s.eligible := by
    ext t
    rw [State.eligible, State.eligible, h.slot]
  rw [State.arb, State.arb, heligible]

/-- A cycle without an acceptance moves the response path as if nothing had been requested. -/
theorem SameResponsePath.edge {s' : State p} (h : SameResponsePath s s')
    (ha : s.acceptThisCycle i = false) :
    SameResponsePath (s.edge i) (s'.edge i.withoutRequest) where
  slot := by
    have ha' : s'.acceptThisCycle i.withoutRequest = false := rfl
    ext t
    change s'.slotNext i.withoutRequest t = s.slotNext i t
    rw [State.slotNext, State.slotNext, ha, ha', State.respConsumedThisCycle,
      State.respConsumedThisCycle, h.slot, h.respActive, h.respTag]
    rfl
  respActive := by
    change s'.respActiveNext i.withoutRequest = s.respActiveNext i
    rw [State.respActiveNext, State.respActiveNext, h.respActive, h.arb]
    rfl
  respTag := by
    change s'.respTagNext = s.respTagNext
    rw [State.respTagNext, State.respTagNext, h.respActive, h.respTag, h.arb]

end Edge

section Statements

variable (inp : ℕ → Inputs p)

/-- In cycle `t` the engine accepts nothing, writes nothing back and keeps lines,
memory and counters, and no tag becomes occupied. -/
structure StallsGlobally (t : ℕ) : Prop where
  accepts : accepts inp t = false
  flush : (run inp t).doFlushWriteThisCycle = false
  cache : (run inp (t + 1)).cache = (run inp t).cache
  mem : (run inp (t + 1)).mem = (run inp t).mem
  hits : (inp (t + 1)).rstN = true → (run inp (t + 1)).dbgCacheHits = (run inp t).dbgCacheHits
  misses : (inp (t + 1)).rstN = true →
    (run inp (t + 1)).dbgCacheMisses = (run inp t).dbgCacheMisses
  occupied : ∀ g, ((run inp (t + 1)).slot g).valid = true → ((run inp t).slot g).valid = true

/-- The engine from cycle `a` on as it would run without a handshake and without
new requests, after `n` cycles. -/
def withoutHandshake (a : ℕ) : ℕ → State p
  | 0 => { run inp a with biState := .idle }
  | n + 1 => (withoutHandshake a n).edge (inp (a + n)).withoutRequest

end Statements

section Runs

variable {inp : ℕ → Inputs p} {t : ℕ}

theorem run_exclusive (inp : ℕ → Inputs p) (t : ℕ) : (run inp t).Exclusive := by
  apply (machine p).run_invariant (P := State.Exclusive)
  · exact Or.inl rfl
  · intro _ _
    exact settle_exclusive
  · intro _ _ _
    exact step_exclusive

/-- A busy sequencer finds no flush to carry out. -/
theorem not_flush_of_biState (h : (run inp t).biState ≠ .idle) :
    (run inp t).doFlushWriteThisCycle = false := by
  apply not_flush_of_idle
  exact (run_exclusive inp t).resolve_left h

/-- A busy sequencer stalls the whole engine. -/
theorem stallsGlobally_of_biState (h : (run inp t).biState ≠ .idle) : StallsGlobally inp t := by
  have hacc : (run inp t).acceptThisCycle (inp t) = false := not_accept_of_biState h
  have hflush := not_flush_of_biState h
  obtain ⟨hcache, hmem⟩ := storage_of_idle hflush hacc
  have hedge : (inp (t + 1)).rstN = true → run inp (t + 1) = (run inp t).edge (inp t) :=
    run_succ_of_rstN (rstN_of_biState h)
  constructor
  · exact hacc
  · exact hflush
  · rw [run_cache_succ, hcache]
  · rw [run_mem_succ, hmem]
  · intro hrst
    rw [hedge hrst]
    simp [State.edge, State.dbgCacheHitsNext, hacc]
  · intro hrst
    rw [hedge hrst]
    simp [State.edge, State.dbgCacheMissesNext, hacc]
  · intro g hg
    rw [run_slot_succ] at hg
    rcases (slotNext_valid_iff (run_offerReady inp t) g).mp hg with ha | hv
    · simp [hacc] at ha
    · exact hv.1

/-- A sequencer without a request to work on stays at rest. -/
theorem biState_withoutHandshake (a n : ℕ) : (withoutHandshake inp a n).biState = .idle := by
  induction n with
  | zero => rfl
  | succ n ih =>
      simp [withoutHandshake, State.edge, State.biStateNext, State.wantBi, ih,
        Inputs.withoutRequest]

/-- Throughout a handshake the response path moves as it does without one. -/
theorem sameResponsePath_withoutHandshake {a n : ℕ} (hrst : (inp (a + n)).rstN = true)
    (h : ∀ w, a ≤ w → w < a + n → (run inp w).biState ≠ .idle) :
    SameResponsePath (run inp (a + n)) (withoutHandshake inp a n) := by
  induction n with
  | zero => exact ⟨rfl, rfl, rfl⟩
  | succ n ih =>
      have hbusy := h (a + n) (Nat.le_add_right a n) (Nat.lt_succ_self _)
      have h₀ := rstN_of_biState hbusy
      have hpath := ih h₀ fun w h₁ h₂ => h w h₁ (Nat.lt_succ_of_lt h₂)
      rw [← Nat.add_assoc, run_succ_of_rstN h₀ hrst]
      exact hpath.edge (not_accept_of_biState hbusy)

/-- A Back-Invalidate handshake stalls the whole engine but its response path,
whatever the inputs are. The requests accepted before it are counted down and
answered as they are without it, and no eviction is ever under way meanwhile. -/
theorem bi_global_stall (inp : ℕ → Inputs p) :
    (∀ t, (run inp t).biActive = true → StallsGlobally inp t) ∧
      (∀ a n, (∀ w, a ≤ w → w < a + n → (run inp w).biActive = true) →
        (inp (a + n)).rstN = true →
          (∀ k, (withoutHandshake inp a k).biActive = false) ∧
            SameResponsePath (run inp (a + n)) (withoutHandshake inp a n)) ∧
      ∀ t, ¬ ((run inp t).biActive = true ∧ (run inp t).flushState = .active) := by
  have hbusy : ∀ {t}, (run inp t).biActive = true → (run inp t).biState ≠ .idle := by
    intro t h
    simpa [State.biActive] using h
  refine ⟨?_, ?_, ?_⟩
  · intro t h
    exact stallsGlobally_of_biState (hbusy h)
  · intro a n h hrst
    constructor
    · intro k
      simp [State.biActive, biState_withoutHandshake]
    · apply sameResponsePath_withoutHandshake hrst
      intro w h₁ h₂
      exact hbusy (h w h₁ h₂)
  · rintro t ⟨h, hflush⟩
    rw [(run_exclusive inp t).resolve_left (hbusy h)] at hflush
    cases hflush

end Runs

end CxlLite.Engine
