import Mathlib.Data.Nat.Notation
import Mathlib.Logic.Function.Basic

/-!
# A flat memory driven by a stream of writes

At most one write lands per cycle. `contents` folds the writes of the earlier
cycles over a memory filled with one initial word.
-/

namespace FlatMemory

variable {A D : Type*} [DecidableEq A]

/-- The memory just before cycle `t`. -/
def contents (writes : ℕ → Option (A × D)) (zero : D) : ℕ → A → D
  | 0 => fun _ => zero
  | t + 1 =>
      match writes t with
      | none => contents writes zero t
      | some (a, d) => Function.update (contents writes zero t) a d

variable {writes : ℕ → Option (A × D)} {zero : D}

theorem contents_succ_none {t : ℕ} (h : writes t = none) :
    contents writes zero (t + 1) = contents writes zero t := by
  simp only [contents, h]

theorem contents_succ_some {t : ℕ} {a : A} {d : D} (h : writes t = some (a, d)) :
    contents writes zero (t + 1) = Function.update (contents writes zero t) a d := by
  simp only [contents, h]

/-- A cycle that does not write `a` keeps the word at `a`. -/
theorem contents_succ_of_ne {t : ℕ} {a : A} (h : ∀ d, writes t ≠ some (a, d)) :
    contents writes zero (t + 1) a = contents writes zero t a := by
  cases hw : writes t with
  | none => rw [contents_succ_none hw]
  | some w =>
      rw [contents_succ_some (a := w.1) (d := w.2) hw]
      apply Function.update_of_ne
      rintro rfl
      exact h w.2 hw

/-- `d` is the data of the last write to `a` before cycle `t`, or the initial
word if there was no such write. -/
def IsLast (writes : ℕ → Option (A × D)) (zero : D) (t : ℕ) (a : A) (d : D) : Prop :=
  (∃ u, u < t ∧ writes u = some (a, d) ∧ ∀ w, u < w → w < t → ∀ d', writes w ≠ some (a, d')) ∨
    d = zero ∧ ∀ w, w < t → ∀ d', writes w ≠ some (a, d')

omit [DecidableEq A] in
theorem IsLast.succ {t : ℕ} {a : A} {d : D} (h : IsLast writes zero t a d)
    (ht : ∀ d', writes t ≠ some (a, d')) : IsLast writes zero (t + 1) a d := by
  have hlast : ∀ w, w < t + 1 → (w < t → ∀ d', writes w ≠ some (a, d')) →
      ∀ d', writes w ≠ some (a, d') := by
    intro w hw hbefore
    rcases Nat.lt_succ_iff_lt_or_eq.mp hw with h | rfl
    · exact hbefore h
    · exact ht
  rcases h with ⟨u, hut, hu, hno⟩ | ⟨rfl, hno⟩
  · exact Or.inl ⟨u, Nat.lt_succ_of_lt hut, hu, fun w h₁ h₂ => hlast w h₂ fun h => hno w h₁ h⟩
  · exact Or.inr ⟨rfl, fun w hw => hlast w hw fun h => hno w h⟩

/-- The memory holds the last write to each address. -/
theorem contents_isLast (t : ℕ) (a : A) : IsLast writes zero t a (contents writes zero t a) := by
  induction t with
  | zero => exact Or.inr ⟨rfl, fun w hw => absurd hw (Nat.not_lt_zero w)⟩
  | succ t ih =>
      by_cases h : ∃ d, writes t = some (a, d)
      · obtain ⟨d, hd⟩ := h
        rw [contents_succ_some hd, Function.update_self]
        exact Or.inl ⟨t, Nat.lt_succ_self t, hd, fun w h₁ h₂ => by omega⟩
      · have hne : ∀ d, writes t ≠ some (a, d) := fun d hd => h ⟨d, hd⟩
        rw [contents_succ_of_ne hne]
        exact ih.succ hne

omit [DecidableEq A] in
theorem IsLast.unique {t : ℕ} {a : A} {d d' : D} (h : IsLast writes zero t a d)
    (h' : IsLast writes zero t a d') : d = d' := by
  rcases h with ⟨u, hut, hu, hno⟩ | ⟨rfl, hno⟩ <;>
    rcases h' with ⟨v, hvt, hv, hno'⟩ | ⟨rfl, hno'⟩
  · rcases Nat.lt_trichotomy u v with h | rfl | h
    · exact absurd hv (hno v h hvt d')
    · exact (Prod.mk.inj (Option.some.inj (hu.symm.trans hv))).2
    · exact absurd hu (hno' u h hut d)
  · exact absurd hu (hno' u hut d)
  · exact absurd hv (hno v hvt d')
  · rfl

/-- Write streams that differ in idle cycles only fill the memory alike: `n` counts
how far the stream `writes'` has come. -/
theorem contents_counter {writes' : ℕ → Option (A × D)} {n : ℕ → ℕ} (h₀ : n 0 = 0)
    (h : ∀ t, n (t + 1) = n t ∧ writes t = none ∨
      n (t + 1) = n t + 1 ∧ writes t = writes' (n t)) (t : ℕ) :
    contents writes zero t = contents writes' zero (n t) := by
  induction t with
  | zero => rw [h₀]; rfl
  | succ t ih =>
      rcases h t with ⟨hn, hw⟩ | ⟨hn, hw⟩
      · rw [hn, contents_succ_none hw, ih]
      · rw [hn]
        simp only [contents, hw, ih]

omit [DecidableEq A] in
/-- The last write of a stream that another one represents, seen at the addresses
and words that it stands for. -/
theorem IsLast.represented {A' D' : Type*} {writes' : ℕ → Option (A' × D')} {f : A' → A}
    {g : D → D'} {t : ℕ} {a : A'} {d : D} (h : IsLast writes zero t (f a) d)
    (hsome : ∀ u d, writes u = some (f a, d) → writes' u = some (a, g d))
    (hnone : ∀ u d', writes' u = some (a, d') → ∃ d, writes u = some (f a, d)) :
    IsLast writes' (g zero) t a (g d) := by
  have hquiet : ∀ w, (∀ d, writes w ≠ some (f a, d)) → ∀ d', writes' w ≠ some (a, d') := by
    intro w hw d' hd'
    obtain ⟨d, hd⟩ := hnone w d' hd'
    exact hw d hd
  rcases h with ⟨u, hut, hu, hno⟩ | ⟨rfl, hno⟩
  · exact Or.inl ⟨u, hut, hsome u d hu, fun w h₁ h₂ => hquiet w (hno w h₁ h₂)⟩
  · exact Or.inr ⟨rfl, fun w hw => hquiet w (hno w hw)⟩

end FlatMemory
