import CxlLite.Mmio.Logic
import Mathlib.Tactic.Ring

/-!
# Timed triples

A processor that idles for a fixed number of cycles before each access takes an
exact number of cycles for a program whose accesses are never held up. A timed
triple states that number. Polling a countdown rounds it up to whole accesses.
-/

namespace Mmio

universe u

variable {S : Type*} {R W α β : Type u}

/-- With `g` idle cycles before each access, the program returns `a` and leaves `s'`
after exactly `n` cycles. -/
inductive Takes (dev : Device S R W) (g : ℕ) : Prog R W α → S → α → S → ℕ → Prop
  | ret (a : α) (s : S) : Takes dev g (.ret a) s a s 0
  | access {x : Access R W} {k : W → Prog R W α} {s s' : S} {a : α} {n : ℕ}
      (ready : dev.stalls x ((dev.cycle none)^[g] s) = false)
      (rest : Takes dev g (k (dev.data x ((dev.cycle none)^[g] s)))
        (dev.cycle (some x) ((dev.cycle none)^[g] s)) a s' n) :
      Takes dev g (.access x k) s a s' (g + 1 + n)

/-- The program returns after exactly `n` cycles, with `g` idle cycles before each access. -/
def ReturnsAt (dev : Device S R W) (g : ℕ) (prog : Prog R W α) (s : S) (n : ℕ) : Prop :=
  (∃ a, (run dev (fun _ => g) prog s n).prog = .ret a) ∧
    ∀ t < n, ∀ a, (run dev (fun _ => g) prog s t).prog ≠ .ret a

section Adequacy

variable {dev : Device S R W} {g : ℕ}

theorem steps_of_wait_add {gaps : ℕ → ℕ} {x : Access R W} {k : W → Prog R W α} {n : ℕ}
    (t w : ℕ) (s : S) :
    (Config.step dev gaps)^[t] ⟨.access x k, t + w, n, s⟩ =
      ⟨.access x k, w, n, (dev.cycle none)^[t] s⟩ := by
  induction t generalizing s with
  | zero => simp
  | succ t ih =>
      rw [Function.iterate_succ_apply, Nat.add_right_comm, Config.step_of_wait, ih,
        ← Function.iterate_succ_apply]

/-- A timed execution is what the processor does. -/
theorem Takes.steps {prog : Prog R W α} {s s' : S} {a : α} {n : ℕ}
    (h : Takes dev g prog s a s' n) (i : ℕ) :
    (∃ j, (Config.step dev fun _ => g)^[n] (Config.enter (fun _ => g) i prog s) =
        Config.enter (fun _ => g) j (.ret a) s') ∧
      ∀ t < n, ∀ b, ((Config.step dev fun _ => g)^[t]
        (Config.enter (fun _ => g) i prog s)).prog ≠ .ret b := by
  induction h generalizing i with
  | ret a s => exact ⟨⟨i, rfl⟩, fun t ht => absurd ht (Nat.not_lt_zero t)⟩
  | @access x k s s' a n ready rest ih =>
      have hwait : ∀ t ≤ g, (Config.step dev fun _ => g)^[t]
          (Config.enter (fun _ => g) i (.access x k) s) =
            ⟨.access x k, g - t, i, (dev.cycle none)^[t] s⟩ := by
        intro t ht
        have hsteps := @steps_of_wait_add _ _ _ _ dev (fun _ => g) x k i t (g - t) s
        rwa [Nat.add_sub_cancel' ht] at hsteps
      have hpass : (Config.step dev fun _ => g)^[g + 1]
          (Config.enter (fun _ => g) i (.access x k) s) =
            Config.enter (fun _ => g) (i + 1) (k (dev.data x ((dev.cycle none)^[g] s)))
              (dev.cycle (some x) ((dev.cycle none)^[g] s)) := by
        rw [Function.iterate_succ_apply', hwait g (Nat.le_refl g), Nat.sub_self]
        exact Config.step_of_ready ready
      obtain ⟨⟨j, hend⟩, hbefore⟩ := ih (i + 1)
      constructor
      · refine ⟨j, ?_⟩
        rw [Nat.add_comm (g + 1) n, Function.iterate_add_apply, hpass, hend]
      · intro t ht b
        rcases Nat.lt_or_ge t (g + 1) with hlt | hge
        · rw [hwait t (Nat.le_of_lt_succ hlt)]
          intro heq
          cases heq
        · obtain ⟨u, rfl⟩ := Nat.exists_eq_add_of_le' hge
          rw [Function.iterate_add_apply, hpass]
          exact hbefore u (by omega) b

theorem Takes.returnsAt {prog : Prog R W α} {s s' : S} {a : α} {n : ℕ}
    (h : Takes dev g prog s a s' n) : ReturnsAt dev g prog s n := by
  obtain ⟨⟨j, hend⟩, hbefore⟩ := h.steps 0
  refine ⟨⟨a, ?_⟩, hbefore⟩
  rw [run, hend]
  rfl

end Adequacy

section Rules

variable {dev : Device S R W} {g : ℕ} {P : S → Prop}

/-- From a state with `P` the program takes `n` cycles and establishes `Q`. -/
def Timed (dev : Device S R W) (g : ℕ) (P : S → Prop) (prog : Prog R W α) (n : ℕ)
    (Q : α → S → Prop) : Prop := ∀ s, P s → ∃ a s', Takes dev g prog s a s' n ∧ Q a s'

theorem Takes.bind {p : Prog R W α} {f : α → Prog R W β} {s s' s'' : S} {a : α} {b : β}
    {n m : ℕ} (hp : Takes dev g p s a s' n) (hf : Takes dev g (f a) s' b s'' m) :
    Takes dev g (p.bind f) s b s'' (n + m) := by
  induction hp with
  | ret a s =>
      rw [Nat.zero_add]
      exact hf
  | access ready rest ih =>
      rw [Nat.add_assoc]
      exact Takes.access ready (ih hf)

theorem Timed.ret {Q : α → S → Prop} {a : α} (h : ∀ s, P s → Q a s) :
    Timed dev g P (.ret a) 0 Q := by
  intro s hs
  exact ⟨a, s, Takes.ret a s, h s hs⟩

theorem Timed.of_pure {φ : Prop} {prog : Prog R W α} {n : ℕ} {Q : α → S → Prop}
    (h : φ → Timed dev g P prog n Q) : Timed dev g (fun s => φ ∧ P s) prog n Q := by
  rintro s ⟨hφ, hs⟩
  exact h hφ s hs

theorem Timed.bind {p : Prog R W α} {f : α → Prog R W β} {n m : ℕ} {Q : α → S → Prop}
    {Q' : β → S → Prop} (hp : Timed dev g P p n Q) (hf : ∀ a, Timed dev g (Q a) (f a) m Q') :
    Timed dev g P (p.bind f) (n + m) Q' := by
  intro s hs
  obtain ⟨a, s', hrun, hQ⟩ := hp s hs
  obtain ⟨b, s'', hrun', hQ'⟩ := hf a s' hQ
  exact ⟨b, s'', hrun.bind hrun', hQ'⟩

/-- Returning a function of the result takes no time. -/
theorem Timed.map {p : Prog R W α} {f : α → β} {n : ℕ} {Q : α → S → Prop} {Q' : β → S → Prop}
    (hp : Timed dev g P p n Q) (h : ∀ a s, Q a s → Q' (f a) s) :
    Timed dev g P (p.bind fun a => .ret (f a)) n Q' := by
  apply hp.bind (m := 0)
  intro a
  apply Timed.ret
  exact h a

/-- An access that is not held up takes its idle cycles and one more. -/
theorem Timed.of_triple {x : Access R W} {f : W → α} {Q : α → S → Prop}
    (h : Triple dev False P (.access x fun v => .ret (f v)) Q)
    (hready : ∀ s, P s → dev.stalls x ((dev.cycle none)^[g] s) = false) :
    Timed dev g P (.access x fun v => .ret (f v)) (g + 1) Q := by
  intro s hs
  obtain ⟨m, hstall, _, hQ⟩ := h s hs g
  have hzero : m = 0 := by
    apply Nat.eq_zero_of_not_pos
    intro hpos
    have hheld := hstall 0 hpos
    rw [Function.iterate_zero_apply, hready s hs] at hheld
    cases hheld
  subst hzero
  have hend : Takes dev g (.access x fun v => .ret (f v)) s _ _ (g + 1 + 0) :=
    Takes.access (k := fun v => .ret (f v)) (hready s hs) (Takes.ret _ _)
  exact ⟨_, _, hend, hQ⟩

theorem Prog.poll_succ (r : R) (pass : W → Bool) (n : ℕ) :
    Prog.poll r pass (n + 1) =
      .access (.read r) fun v => if pass v then .ret v else .poll r pass n := by
  simp only [Prog.poll, Prog.loop, Prog.bind]
  congr
  funext v
  cases pass v <;> rfl

/-- Polling a countdown from `k` takes `k / (g + 1) + 1` accesses. -/
theorem Timed.poll {r : R} {pass : W → Bool} {I : ℕ → S → Prop} {Q : W → S → Prop}
    (hidle : ∀ n s, I n s → I (n - 1) (dev.cycle none s))
    (hready : ∀ n s, I n s → dev.stalls (.read r) s = false)
    (hfail : ∀ n s, I (n + 1) s →
      pass (dev.data (.read r) s) = false ∧ I n (dev.cycle (some (.read r)) s))
    (hpass : ∀ s, I 0 s → pass (dev.data (.read r) s) = true ∧
      Q (dev.data (.read r) s) (dev.cycle (some (.read r)) s))
    {k budget : ℕ} (hk : k / (g + 1) < budget) :
    Timed dev g (I k) (.poll r pass budget) ((g + 1) * (k / (g + 1) + 1)) Q := by
  have hwait : ∀ n k s, I k s → I (k - n) ((dev.cycle none)^[n] s) := by
    intro n
    induction n with
    | zero =>
        intro k s h
        exact h
    | succ n ih =>
        intro k s h
        rw [Function.iterate_succ_apply, show k - (n + 1) = k - 1 - n by omega]
        exact ih (k - 1) _ (hidle k s h)
  induction budget generalizing k with
  | zero => exact absurd hk (Nat.not_lt_zero _)
  | succ budget ih =>
      intro s hs
      have hs' := hwait g k s hs
      have hready' := hready _ _ hs'
      rcases Nat.lt_or_ge g k with hlt | hle
      · -- The poll fails, and `g + 1` cycles of the countdown have passed.
        obtain ⟨n, hn⟩ : ∃ n, k - g = n + 1 := ⟨k - g - 1, by omega⟩
        rw [hn] at hs'
        obtain ⟨hno, hnext⟩ := hfail n _ hs'
        have hdiv : k / (g + 1) = n / (g + 1) + 1 := by
          rw [show k = n + (g + 1) by omega, Nat.add_div_right n (Nat.succ_pos g)]
        obtain ⟨a, s', hrun, hQ⟩ := ih (k := n) (by omega) _ hnext
        refine ⟨a, s', ?_, hQ⟩
        have hcycles : (g + 1) * (k / (g + 1) + 1) = g + 1 + (g + 1) * (n / (g + 1) + 1) := by
          rw [hdiv]
          ring
        rw [hcycles, Prog.poll_succ]
        apply Takes.access hready'
        rw [hno]
        exact hrun
      · rw [Nat.sub_eq_zero_of_le hle] at hs'
        obtain ⟨hyes, hQ⟩ := hpass _ hs'
        refine ⟨_, _, ?_, hQ⟩
        rw [Nat.div_eq_of_lt (Nat.lt_succ_of_le hle), Nat.zero_add, Nat.mul_one, Prog.poll_succ]
        change Takes dev g _ s _ _ (g + 1 + 0)
        apply Takes.access hready'
        rw [hyes]
        exact Takes.ret _ _

/-- The times of a list of programs add up. -/
theorem Timed.sequence {ι : Type*} {prog : ι → Prog R W α} {cost : ι → ℕ}
    {I : List ι → List α → S → Prop}
    (hstep : ∀ i l as, Timed dev g (I (i :: l) as) (prog i) (cost i) fun a => I l (as ++ [a]))
    (l : List ι) (as : List α) :
    Timed dev g (I l as) (.sequence (l.map prog)) (l.map cost).sum fun bs => I [] (as ++ bs) := by
  induction l generalizing as with
  | nil =>
      apply Timed.ret
      intro s hs
      rwa [List.append_nil]
  | cons i l ih =>
      rw [List.map_cons, List.map_cons, List.sum_cons]
      apply (hstep i l as).bind
      intro a
      apply (ih (as ++ [a])).map
      intro bs s hs
      rwa [List.append_assoc] at hs

/-- A timed triple speaks about the executions of its program. -/
theorem Timed.returnsAt {prog : Prog R W α} {n : ℕ} {Q : α → S → Prop}
    (h : Timed dev g P prog n Q) {s : S} (hs : P s) : ReturnsAt dev g prog s n := by
  obtain ⟨_, _, hrun, _⟩ := h s hs
  exact hrun.returnsAt

end Rules

end Mmio
