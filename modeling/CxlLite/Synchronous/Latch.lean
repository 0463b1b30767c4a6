import Mathlib.Data.Nat.Notation
import Mathlib.Tactic.ByContra

/-!
# Alternating events and the latches that separate them

A latch is set by one kind of event and cleared by another. When it is set
only while free and cleared only while held, the two kinds of event strictly
alternate, and the latch is held exactly while the last set event is unanswered.
-/

namespace Synchronous

/-- The events of `A` and `B` strictly alternate, starting with `A`: each `B`
answers an earlier `A` with no `B` in between, and an `A` only repeats after a `B`. -/
structure Alternate (A B : ℕ → Prop) : Prop where
  answers : ∀ v, B v → ∃ u, u < v ∧ A u ∧ ∀ w, u < w → w < v → ¬ B w
  reopens : ∀ u v, u < v → A u → A v → ∃ w, u < w ∧ w < v ∧ B w

/-- The event `A` at `u` has been followed by no event of either kind before `t`. -/
def Open (A B : ℕ → Prop) (u t : ℕ) : Prop :=
  u < t ∧ A u ∧ ∀ w, u < w → w < t → ¬ A w ∧ ¬ B w

theorem Open.unique {A B : ℕ → Prop} {u v t : ℕ} (hu : Open A B u t) (hv : Open A B v t) :
    u = v := by
  rcases Nat.lt_trichotomy u v with h | h | h
  · exact absurd hv.2.1 (hu.2.2 v h hv.1).1
  · exact h
  · exact absurd hu.2.1 (hv.2.2 u h hu.1).1

/-- An event open after cycle `t` happened in `t`, or was open before it and saw
neither kind of event in `t`. -/
theorem open_succ_iff {A B : ℕ → Prop} {u t : ℕ} :
    Open A B u (t + 1) ↔ u = t ∧ A t ∨ Open A B u t ∧ ¬ A t ∧ ¬ B t := by
  constructor
  · rintro ⟨hut, hu, hno⟩
    rcases Nat.lt_succ_iff_lt_or_eq.mp hut with hlt | rfl
    · right
      refine ⟨⟨hlt, hu, ?_⟩, hno t hlt (Nat.lt_succ_self t)⟩
      intro w h₁ h₂
      exact hno w h₁ (Nat.lt_succ_of_lt h₂)
    · exact Or.inl ⟨rfl, hu⟩
  · rintro (⟨rfl, hu⟩ | ⟨⟨hut, hu, hno⟩, ht⟩)
    · refine ⟨Nat.lt_succ_self u, hu, ?_⟩
      intro w h₁ h₂
      omega
    · refine ⟨Nat.lt_succ_of_lt hut, hu, ?_⟩
      intro w h₁ h₂
      rcases Nat.lt_succ_iff_lt_or_eq.mp h₂ with h | rfl
      · exact hno w h₁ h
      · exact ht

/-- `held` is set by `set`, cleared by `clear`, set only when free and cleared
only when held. -/
structure Latch (held set clear : ℕ → Prop) : Prop where
  init : ¬ held 0
  set_free : ∀ t, set t → ¬ held t
  clear_held : ∀ t, clear t → held t
  next : ∀ t, held (t + 1) ↔ set t ∨ held t ∧ ¬ clear t

namespace Latch

variable {held set clear : ℕ → Prop}

/-- The latch is held exactly while some set event is open. -/
theorem held_iff_open (l : Latch held set clear) (t : ℕ) :
    held t ↔ ∃ u, Open set clear u t := by
  induction t with
  | zero => exact ⟨fun h => absurd h l.init, fun ⟨_, h⟩ => absurd h.1 (Nat.not_lt_zero _)⟩
  | succ t ih =>
      simp only [l.next, open_succ_iff]
      constructor
      · rintro (hs | ⟨hh, hc⟩)
        · exact ⟨t, Or.inl ⟨rfl, hs⟩⟩
        · obtain ⟨u, hu⟩ := ih.mp hh
          refine ⟨u, Or.inr ⟨hu, ?_, hc⟩⟩
          intro hs
          exact l.set_free t hs hh
      · rintro ⟨u, ⟨rfl, hs⟩ | ⟨hu, _, hc⟩⟩
        · exact Or.inl hs
        · exact Or.inr ⟨ih.mpr ⟨u, hu⟩, hc⟩

/-- A clear event answers exactly one open set event. -/
theorem clear_answers (l : Latch held set clear) {v : ℕ} (hv : clear v) :
    ∃ u, Open set clear u v :=
  (l.held_iff_open v).mp (l.clear_held v hv)

/-- A set latch stays held until it is cleared. -/
theorem held_of_set (l : Latch held set clear) {u t : ℕ} (hu : set u) (hut : u < t)
    (hno : ∀ w, u < w → w < t → ¬ clear w) : held t := by
  induction t with
  | zero => exact absurd hut (Nat.not_lt_zero u)
  | succ t ih =>
      rcases Nat.lt_succ_iff_lt_or_eq.mp hut with h | rfl
      · have hheld : held t := by
          apply ih h
          intro w h₁ h₂
          exact hno w h₁ (Nat.lt_succ_of_lt h₂)
        exact (l.next t).mpr (Or.inr ⟨hheld, hno t h (Nat.lt_succ_self t)⟩)
      · exact (l.next u).mpr (Or.inl hu)

/-- A set event is open as long as it has not been answered. -/
theorem open_of_set (l : Latch held set clear) {u t : ℕ} (hu : set u) (hut : u < t)
    (hno : ∀ w, u < w → w < t → ¬ clear w) : Open set clear u t := by
  refine ⟨hut, hu, ?_⟩
  intro w h₁ h₂
  have hheld : held w := l.held_of_set hu h₁ fun x h₃ h₄ => hno x h₃ (Nat.lt_trans h₄ h₂)
  constructor
  · intro hs
    exact l.set_free w hs hheld
  · exact hno w h₁ h₂

theorem alternate (l : Latch held set clear) : Alternate set clear where
  answers v hv := by
    obtain ⟨u, huv, hu, hno⟩ := l.clear_answers hv
    refine ⟨u, huv, hu, ?_⟩
    intro w h₁ h₂
    exact (hno w h₁ h₂).2
  reopens u v huv hu hv := by
    by_contra hnone
    apply l.set_free v hv
    apply l.held_of_set hu huv
    intro w h₁ h₂ hw
    exact hnone ⟨w, h₁, h₂, hw⟩

/-- From a free cycle on, a latch is again a latch. -/
theorem drop (l : Latch held set clear) {k : ℕ} (hk : ¬ held k) :
    Latch (fun t => held (t + k)) (fun t => set (t + k)) (fun t => clear (t + k)) where
  init := by simpa using hk
  set_free t := l.set_free (t + k)
  clear_held t := l.clear_held (t + k)
  next t := by simpa only [Nat.add_right_comm] using l.next (t + k)

end Latch

/-- A flag that is up at `t` and down later falls in some cycle in between. -/
theorem exists_fall {f : ℕ → Bool} {t t' : ℕ} (htt : t < t') (h : f t = true)
    (h' : f t' = false) : ∃ u, t ≤ u ∧ u < t' ∧ f u = true ∧ f (u + 1) = false := by
  induction htt with
  | refl => exact ⟨t, Nat.le_refl t, Nat.lt_succ_self t, h, h'⟩
  | @step n htn ih =>
      cases hn : f n with
      | true => exact ⟨n, Nat.le_of_succ_le htn, Nat.lt_succ_self n, hn, h'⟩
      | false =>
          obtain ⟨u, h₁, h₂, h₃⟩ := ih hn
          exact ⟨u, h₁, Nat.lt_succ_of_lt h₂, h₃⟩

end Synchronous
