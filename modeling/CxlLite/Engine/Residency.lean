import CxlLite.Engine.BackInvalidate
import CxlLite.Engine.Memory

/-!
# Resident addresses and their bias

Only an acceptance with the cache on changes which addresses are resident, and
only the debug port makes an address Host-Biased.
-/

namespace CxlLite.Engine

open DirectMapped

variable {p : Params}

/-- Every valid line holds a Device-Biased address. -/
def State.LinesDeviceBiased (s : State p) : Prop :=
  ∀ k, (s.cache k).valid = true → s.bias (lineAddr (s.cache k).tag k) = false

section Next

variable {s : State p} {i : Inputs p}

theorem linesDeviceBiased_iff :
    s.LinesDeviceBiased ↔ ∀ a, Resident (geometry p) s.cache a → s.bias a = false := by
  constructor
  · rintro h a ⟨hv, ht⟩
    have hline := h (idxField a) hv
    have htag : (s.cache (idxField a)).tag = tagField a := ht
    rw [htag, lineAddr_fields] at hline
    exact hline
  · intro h k hv
    apply h
    exact resident_addr (geometry p) hv

/-- Which addresses are resident after a cycle that allocates. -/
theorem resident_of_accept (h : s.acceptThisCycle i = true) (hb : i.cacheBypassEn = false)
    (a : p.Addr) :
    Resident (geometry p) (s.cacheNext i) a ↔
      a = i.m2sAddr ∨ idxField a ≠ idxField i.m2sAddr ∧ Resident (geometry p) s.cache a := by
  rw [cacheNext_of_accept h hb]
  exact resident_place (geometry p) acceptLine_valid acceptLine_tag a

/-- A cycle that allocates nothing keeps the resident addresses. -/
theorem resident_of_not_allocate (h : ¬ (s.acceptThisCycle i = true ∧ i.cacheBypassEn = false))
    (a : p.Addr) :
    Resident (geometry p) (s.cacheNext i) a ↔ Resident (geometry p) s.cache a := by
  cases hflush : s.doFlushWriteThisCycle with
  | true =>
      rw [cacheNext_of_flush hflush]
      by_cases hi : (geometry p).idx a = idxField i.m2sAddr
      · simp only [Resident, hi, Function.update_self]
      · simp only [Resident, Function.update_of_ne hi]
  | false =>
      have hno : (s.acceptThisCycle i && !i.cacheBypassEn) = false := by
        cases ha : s.acceptThisCycle i <;> cases hb : i.cacheBypassEn <;> simp_all
      simp [State.cacheNext, hflush, hno]

/-- Host bias is gained through the debug port only. -/
theorem biasNext_gain {a : p.Addr} (h : s.biasNext i a = true) :
    s.bias a = true ∨ i.biasWrEn = true ∧ i.biasAddr = a ∧ i.biasWrData = true := by
  cases hf : s.biFlipNow i with
  | true =>
      rw [biasNext_of_flip hf] at h
      by_cases ha : a = i.m2sAddr
      · simp [ha] at h
      · left
        rwa [Function.update_of_ne ha] at h
  | false =>
      rw [biasNext_of_not_flip hf, BiasTable.write] at h
      split at h
      case isTrue hen =>
        by_cases ha : a = i.biasAddr
        · right
          subst ha
          rw [Function.update_self] at h
          exact ⟨hen, rfl, h⟩
        · left
          rwa [Function.update_of_ne ha] at h
      case isFalse => exact Or.inl h

/-- A cycle keeps the lines Device-Biased if the debug port makes no resident
address Host-Biased, and not the address that is being allocated either. -/
theorem linesDeviceBiased_edge (h : s.LinesDeviceBiased)
    (hset : i.biasWrEn = true → i.biasWrData = true → ¬ Resident (geometry p) s.cache i.biasAddr)
    (hcol : ¬ (i.biasWrEn = true ∧ i.biasWrData = true ∧ s.acceptThisCycle i = true ∧
      i.cacheBypassEn = false ∧ i.m2sAddr = i.biasAddr)) :
    (s.edge i).LinesDeviceBiased := by
  rw [linesDeviceBiased_iff] at h ⊢
  intro a hr
  by_contra hbias
  have hgain := biasNext_gain (Bool.eq_true_of_not_eq_false hbias)
  have hresident : Resident (geometry p) s.cache a ∨
      (s.acceptThisCycle i = true ∧ i.cacheBypassEn = false) ∧ a = i.m2sAddr := by
    by_cases halloc : s.acceptThisCycle i = true ∧ i.cacheBypassEn = false
    · rcases (resident_of_accept halloc.1 halloc.2 a).mp hr with haddr | ⟨_, hra⟩
      · exact Or.inr ⟨halloc, haddr⟩
      · exact Or.inl hra
    · exact Or.inl ((resident_of_not_allocate halloc a).mp hr)
  rcases hresident with hra | ⟨halloc, rfl⟩ <;> rcases hgain with hold | ⟨hen, haddr, hdata⟩
  · simp [h a hra] at hold
  · exact hset hen hdata (haddr ▸ hra)
  · simp [bias_of_accept halloc.1] at hold
  · exact hcol ⟨hen, hdata, halloc.1, halloc.2, haddr.symm⟩

/-- A debug write of 1 to the address being allocated leaves a Host-Biased line. -/
theorem not_linesDeviceBiased_edge (hen : i.biasWrEn = true) (hdata : i.biasWrData = true)
    (ha : s.acceptThisCycle i = true) (hb : i.cacheBypassEn = false)
    (haddr : i.m2sAddr = i.biasAddr) : ¬ (s.edge i).LinesDeviceBiased := by
  rw [linesDeviceBiased_iff]
  intro h
  have hflip : s.biFlipNow i = false := by simp [State.biFlipNow, biState_of_accept ha]
  have hdev : s.biasNext i i.m2sAddr = false :=
    h _ ((resident_of_accept ha hb _).mpr (Or.inl rfl))
  simp [biasNext_of_not_flip hflip, hen, hdata, haddr] at hdev

end Next

end CxlLite.Engine
