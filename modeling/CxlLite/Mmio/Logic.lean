import CxlLite.Mmio.Program

/-!
# A program logic for register programs

`wp` is the weakest condition on the device under which a program returns with
the postcondition, however many cycles the processor lets pass before each
access. The parameter `X` says whether the program may exit instead.
-/

namespace Mmio

universe u

variable {S : Type*} {R W α β σ : Type u} {dev : Device S R W} {X : Prop}

namespace Device

variable (dev : Device S R W)

/-- The access, put on the bus in state `s` and held, completes in a state with `P`. -/
def Completes (x : Access R W) (P : S → Prop) (s : S) : Prop :=
  ∃ m, (∀ j < m, dev.stalls x ((dev.cycle (some x))^[j] s) = true) ∧
    dev.stalls x ((dev.cycle (some x))^[m] s) = false ∧ P ((dev.cycle (some x))^[m] s)

/-- `P` survives a cycle without an access. -/
def Stable (P : S → Prop) : Prop := ∀ s, P s → P (dev.cycle none s)

variable {dev}

theorem Stable.iterate {P : S → Prop} (h : dev.Stable P) (n : ℕ) {s : S} (hs : P s) :
    P ((dev.cycle none)^[n] s) := by
  induction n with
  | zero => exact hs
  | succ n ih =>
      rw [Function.iterate_succ_apply']
      exact h _ ih

theorem Completes.mono {x : Access R W} {P P' : S → Prop} (h : ∀ s, P s → P' s) {s : S}
    (hs : dev.Completes x P s) : dev.Completes x P' s := by
  obtain ⟨m, hstall, hready, hP⟩ := hs
  exact ⟨m, hstall, hready, h _ hP⟩

theorem completes_of_ready {x : Access R W} {P : S → Prop} {s : S}
    (hready : dev.stalls x s = false) (h : P s) : dev.Completes x P s :=
  ⟨0, fun j hj => absurd hj (Nat.not_lt_zero j), hready, h⟩

end Device

section WeakestPrecondition

variable (dev X)

/-- From device state `s` the program returns with `Q`, or exits when `X` allows it. -/
def wp : Prog R W α → (α → S → Prop) → S → Prop
  | .ret a, Q, s => Q a s
  | .exit, _, _ => X
  | .access x k, Q, s => ∀ n, dev.Completes x
      (fun s' => wp (k (dev.data x s')) Q (dev.cycle (some x) s')) ((dev.cycle none)^[n] s)

/-- Total correctness with respect to a pre- and a postcondition. -/
def Triple (P : S → Prop) (prog : Prog R W α) (Q : α → S → Prop) : Prop :=
  ∀ s, P s → wp dev X prog Q s

variable {dev X}

theorem wp_mono {prog : Prog R W α} {Q Q' : α → S → Prop} (h : ∀ a s, Q a s → Q' a s) {s : S}
    (hs : wp dev X prog Q s) : wp dev X prog Q' s := by
  induction prog generalizing s with
  | ret a => exact h a s hs
  | exit => exact hs
  | access x k ih =>
      intro n
      apply (hs n).mono
      intro s' hs'
      exact ih _ hs'

theorem wp_bind {p : Prog R W α} {f : α → Prog R W β} {Q : β → S → Prop} {s : S}
    (h : wp dev X p (fun a => wp dev X (f a) Q) s) : wp dev X (p.bind f) Q s := by
  induction p generalizing s with
  | ret a => exact h
  | exit => exact h
  | access x k ih =>
      intro n
      apply (h n).mono
      intro s' hs'
      exact ih _ hs'

end WeakestPrecondition

section Rules

variable {P P' : S → Prop} {Q Q' : α → S → Prop}

theorem Triple.conseq {prog : Prog R W α} (h : Triple dev X P prog Q) (hP : ∀ s, P' s → P s)
    (hQ : ∀ a s, Q a s → Q' a s) : Triple dev X P' prog Q' := by
  intro s hs
  exact wp_mono hQ (h s (hP s hs))

theorem Triple.ret {a : α} (h : ∀ s, P s → Q a s) : Triple dev X P (.ret a) Q := h

/-- What the precondition says beside the state can be assumed. -/
theorem Triple.of_pure {φ : Prop} {prog : Prog R W α} (h : φ → Triple dev X P prog Q) :
    Triple dev X (fun s => φ ∧ P s) prog Q := by
  rintro s ⟨hφ, hs⟩
  exact h hφ s hs

theorem Triple.bind {p : Prog R W α} {f : α → Prog R W β} {M : α → S → Prop} {Q : β → S → Prop}
    (hp : Triple dev X P p M) (hf : ∀ a, Triple dev X (M a) (f a) Q) :
    Triple dev X P (p.bind f) Q := by
  intro s hs
  exact wp_bind (wp_mono (fun a s' => hf a s') (hp s hs))

/-- An access that is not held up, from a precondition that survives idle cycles. -/
theorem Triple.access {x : Access R W} {k : W → Prog R W α} (hstable : dev.Stable P)
    (hready : ∀ s, P s → dev.stalls x s = false)
    (hnext : ∀ s, P s → wp dev X (k (dev.data x s)) Q (dev.cycle (some x) s)) :
    Triple dev X P (.access x k) Q := by
  intro s hs n
  have hn := hstable.iterate n hs
  exact Device.completes_of_ready (hready _ hn) (hnext _ hn)

theorem Triple.read {r : R} {Q : W → S → Prop} (hstable : dev.Stable P)
    (hready : ∀ s, P s → dev.stalls (.read r) s = false)
    (hnext : ∀ s, P s → Q (dev.data (.read r) s) (dev.cycle (some (.read r)) s)) :
    Triple dev X P (.read r) Q := Triple.access hstable hready hnext

theorem Triple.write {r : R} {v : W} {Q : PUnit → S → Prop} (hstable : dev.Stable P)
    (hready : ∀ s, P s → dev.stalls (.write r v) s = false)
    (hnext : ∀ s, P s → Q ⟨⟩ (dev.cycle (some (.write r v)) s)) :
    Triple dev X P (.write r v) Q := Triple.access hstable hready hnext

/-- What a loop body has to establish: another round from a smaller bound, or the
result. -/
def Round (I : ℕ → σ → S → Prop) (Q : α → S → Prop) (n : ℕ) : σ ⊕ α → S → Prop
  | .inl x, s => ∃ m < n, I m x s
  | .inr a, s => Q a s

/-- A loop with an invariant `I n`, where `n` bounds the repetitions still to come:
it returns when its budget exceeds the bound. -/
theorem Triple.loop {body : σ → Prog R W (σ ⊕ α)} {I : ℕ → σ → S → Prop} {Q : α → S → Prop}
    (hbody : ∀ n x, Triple dev X (I n x) (body x) (Round I Q n)) {n budget : ℕ}
    (hn : X ∨ n < budget) (x : σ) : Triple dev X (I n x) (.loop body budget x) Q := by
  induction budget generalizing n x with
  | zero =>
      intro s _
      rcases hn with h | h
      · exact h
      · exact absurd h (Nat.not_lt_zero n)
  | succ budget ih =>
      apply (hbody n x).bind
      intro r
      cases r with
      | inl x' =>
          rintro s ⟨m, hm, hI⟩
          have hm' : X ∨ m < budget := by
            rcases hn with h | h
            · exact Or.inl h
            · exact Or.inr (by omega)
          exact ih hm' x' s hI
      | inr a =>
          intro s h
          exact h

/-- Busy waiting: while the value read fails the test, each cycle brings the
device nearer to a state in which it passes. -/
theorem Triple.poll {r : R} {pass : W → Bool} {I : ℕ → S → Prop} {Q : W → S → Prop}
    (hidle : ∀ n s, I n s → I (n - 1) (dev.cycle none s))
    (hready : ∀ n s, I n s → dev.stalls (.read r) s = false)
    (hfail : ∀ n s, I n s → pass (dev.data (.read r) s) = false →
      0 < n ∧ I (n - 1) (dev.cycle (some (.read r)) s))
    (hpass : ∀ n s, I n s → pass (dev.data (.read r) s) = true →
      Q (dev.data (.read r) s) (dev.cycle (some (.read r)) s))
    {n budget : ℕ} (hn : X ∨ n < budget) : Triple dev X (I n) (.poll r pass budget) Q := by
  have hloop : Triple dev X (fun s => ∃ m ≤ n, I m s) (.poll r pass budget) Q := by
    apply Triple.loop (I := fun n _ s => ∃ m ≤ n, I m s) _ hn
    intro n _
    apply Triple.access
    · rintro s ⟨m, hm, hI⟩
      exact ⟨m - 1, by omega, hidle m s hI⟩
    · rintro s ⟨m, _, hI⟩
      exact hready m s hI
    · rintro s ⟨m, hm, hI⟩
      cases hp : pass (dev.data (.read r) s) with
      | true => exact hpass m s hI hp
      | false =>
          obtain ⟨hpos, hnext⟩ := hfail m s hI hp
          exact ⟨m - 1, by omega, m - 1, Nat.le_refl _, hnext⟩
  apply hloop.conseq _ fun _ _ h => h
  intro s hs
  exact ⟨n, Nat.le_refl n, hs⟩

/-- A list of programs keeps an invariant that is indexed by what is left to run
and by what has been returned. -/
theorem Triple.sequence {ι : Type*} {prog : ι → Prog R W α} {I : List ι → List α → S → Prop}
    (hstep : ∀ i l as, Triple dev X (I (i :: l) as) (prog i) fun a => I l (as ++ [a]))
    (l : List ι) (as : List α) :
    Triple dev X (I l as) (.sequence (l.map prog)) fun bs => I [] (as ++ bs) := by
  induction l generalizing as with
  | nil =>
      apply Triple.ret
      intro s hs
      rwa [List.append_nil]
  | cons i l ih =>
      apply (hstep i l as).bind
      intro a
      apply (ih (as ++ [a])).bind
      intro bs
      apply Triple.ret
      intro s hs
      rwa [List.append_assoc] at hs

end Rules

section Adequacy

/-- An access that completes is passed by the execution of its program. -/
theorem exists_step_of_completes {gaps : ℕ → ℕ} {x : Access R W} {k : W → Prog R W α}
    {P : S → Prop} {n : ℕ} {s : S} (h : dev.Completes x P ((dev.cycle none)^[gaps n] s)) :
    ∃ t s', P s' ∧ (Config.step dev gaps)^[t] (Config.enter gaps n (.access x k) s) =
      Config.enter gaps (n + 1) (k (dev.data x s')) (dev.cycle (some x) s') := by
  obtain ⟨m, hstall, hready, hP⟩ := h
  refine ⟨1 + (m + gaps n), _, hP, ?_⟩
  rw [Function.iterate_add_apply, Function.iterate_add_apply, Config.enter,
    Config.steps_of_wait, Config.steps_of_stall m hstall]
  exact Config.step_of_ready hready

/-- The logic is adequate: whatever the gaps between its accesses are, a program
with a weakest precondition returns with the postcondition, or exits if it may. -/
theorem wp_adequate {prog : Prog R W α} {Q : α → S → Prop} {s : S} (h : wp dev X prog Q s)
    (gaps : ℕ → ℕ) (n : ℕ) :
    ∃ t c, (Config.step dev gaps)^[t] (Config.enter gaps n prog s) = c ∧
      ((∃ a, c.prog = .ret a ∧ Q a c.device) ∨ c.prog = .exit ∧ X) := by
  induction prog generalizing s n with
  | ret a => exact ⟨0, _, rfl, Or.inl ⟨a, rfl, h⟩⟩
  | exit => exact ⟨0, _, rfl, Or.inr ⟨rfl, h⟩⟩
  | access x k ih =>
      obtain ⟨t, s', hs', hrun⟩ := exists_step_of_completes (k := k) (h (gaps n))
      obtain ⟨t', c, hc, hend⟩ := ih _ hs' (n + 1)
      refine ⟨t' + t, c, ?_, hend⟩
      rw [Function.iterate_add_apply, hrun, hc]

/-- A proved triple speaks about the executions of its program. -/
theorem Triple.run {P : S → Prop} {prog : Prog R W α} {Q : α → S → Prop}
    (h : Triple dev X P prog Q) {s : S} (hs : P s) (gaps : ℕ → ℕ) :
    ∃ t, (∃ a, (run dev gaps prog s t).prog = .ret a ∧ Q a (run dev gaps prog s t).device) ∨
      (run dev gaps prog s t).prog = .exit ∧ X := by
  obtain ⟨t, c, rfl, hend⟩ := wp_adequate (h s hs) gaps 0
  exact ⟨t, hend⟩

end Adequacy

end Mmio
