import CxlLite.Mmio.Logic

/-!
# Two devices in lockstep

A program that only writes puts the same accesses on the bus of any device. On two
states that the bus cannot tell apart by its waits it therefore runs in lockstep, and
what is proved of each of its runs holds at the same time.
-/

namespace Mmio

universe u

variable {S : Type*} {R W α β : Type u}

namespace Prog

/-- The program writes only, and what it writes does not depend on the data lines. -/
def Blind : Prog R W α → Prop
  | .ret _ | .exit => True
  | .access x k => (∃ r v, x = .write r v) ∧ (∀ w w', k w = k w') ∧ ∀ w, (k w).Blind

theorem blind_write (r : R) (v : W) : (Prog.write r v).Blind :=
  ⟨⟨r, v, rfl⟩, fun _ _ => rfl, fun _ => trivial⟩

theorem Blind.bind {p : Prog R W α} {f : α → Prog R W β} (hp : p.Blind) (hf : ∀ a, (f a).Blind) :
    (p.bind f).Blind := by
  induction p with
  | ret a => exact hf a
  | exit => exact trivial
  | access x k ih =>
      refine ⟨hp.1, ?_, fun w => ih w (hp.2.2 w)⟩
      intro w w'
      change (k w).bind f = (k w').bind f
      rw [hp.2.1 w w']

end Prog

/-- The relation survives every cycle, and related states hold up the same accesses. -/
structure Lockstep (dev : Device S R W) (E : S → S → Prop) : Prop where
  cycle : ∀ x s s', E s s' → E (dev.cycle x s) (dev.cycle x s')
  stalls : ∀ x s s', E s s' → dev.stalls x s = dev.stalls x s'

namespace Lockstep

variable {dev : Device S R W} {E : S → S → Prop}

theorem iterate (h : Lockstep dev E) (x : Option (Access R W)) (n : ℕ) {s s' : S} (hs : E s s') :
    E ((dev.cycle x)^[n] s) ((dev.cycle x)^[n] s') := by
  induction n with
  | zero => exact hs
  | succ n ih =>
      rw [Function.iterate_succ_apply', Function.iterate_succ_apply']
      exact h.cycle x _ _ ih

/-- A blind program ends on both sides at once, with both postconditions. -/
theorem wp (h : Lockstep dev E) {prog : Prog R W α} (hprog : prog.Blind) {Q Q' : α → S → Prop}
    {s s' : S} (hs : E s s') (hQ : Mmio.wp dev False prog Q s)
    (hQ' : Mmio.wp dev False prog Q' s') : ∃ a t t', E t t' ∧ Q a t ∧ Q' a t' := by
  induction prog generalizing s s' with
  | ret a => exact ⟨a, s, s', hs, hQ, hQ'⟩
  | exit => exact hQ.elim
  | access x k ih =>
      obtain ⟨m, hstall, hready, hnext⟩ := hQ 0
      obtain ⟨m', hstall', hready', hnext'⟩ := hQ' 0
      simp only [Function.iterate_zero_apply] at hstall hready hnext hstall' hready' hnext'
      have hsame : m = m' := by
        rcases Nat.lt_trichotomy m m' with hlt | heq | hgt
        · rw [h.stalls x _ _ (h.iterate (some x) m hs), hstall' m hlt] at hready
          cases hready
        · exact heq
        · rw [← h.stalls x _ _ (h.iterate (some x) m' hs), hstall m' hgt] at hready'
          cases hready'
      subst hsame
      rw [hprog.2.1 _ (dev.data x ((dev.cycle (some x))^[m] s))] at hnext'
      exact ih _ (hprog.2.2 _) (h.cycle (some x) _ _ (h.iterate (some x) m hs)) hnext hnext'

end Lockstep

end Mmio
