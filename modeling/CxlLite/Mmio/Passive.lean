import CxlLite.Mmio.Logic

/-!
# Passive programs

A program that makes only accesses of a certain kind cannot be noticed if the device
treats those as it treats an idle cycle, up to an equivalence of its states: the
device ends up where it would be if the program had not run.
-/

namespace Mmio

universe u

variable {S : Type*} {R W α β : Type u}

namespace Prog

/-- Every access of the program satisfies `P`, whatever it reads. -/
def Only (P : Access R W → Prop) : Prog R W α → Prop
  | .ret _ | .exit => True
  | .access x k => P x ∧ ∀ v, (k v).Only P

variable {P : Access R W → Prop}

theorem Only.bind {p : Prog R W α} {f : α → Prog R W β} (hp : p.Only P)
    (hf : ∀ a, (f a).Only P) : (p.bind f).Only P := by
  induction p with
  | ret a => exact hf a
  | exit => exact hp
  | access x k ih => exact ⟨hp.1, fun v => ih v (hp.2 v)⟩

theorem Only.sequence {ps : List (Prog R W α)} (h : ∀ p ∈ ps, p.Only P) :
    (Prog.sequence ps).Only P := by
  induction ps with
  | nil => exact trivial
  | cons p ps ih =>
      apply (h p (List.mem_cons_self ..)).bind
      intro a
      apply (ih fun p' hp' => h p' (List.mem_cons_of_mem p hp')).bind
      intro as
      exact trivial

end Prog

section Frame

variable {dev : Device S R W} {P : Access R W → Prop} {F : S → Prop} {X : Prop}

theorem wp_frame (hidle : dev.Stable F) (haccess : ∀ x s, P x → F s → F (dev.cycle (some x) s))
    {prog : Prog R W α} {Q : α → S → Prop} (hprog : prog.Only P) {s : S} (hs : F s)
    (h : wp dev X prog Q s) : wp dev X prog (fun a s => Q a s ∧ F s) s := by
  induction prog generalizing s with
  | ret a => exact ⟨h, hs⟩
  | exit => exact h
  | access x k ih =>
      intro n
      obtain ⟨m, hstall, hready, hnext⟩ := h n
      have hkept : F ((dev.cycle (some x))^[m] ((dev.cycle none)^[n] s)) := by
        have hn := hidle.iterate n hs
        clear hstall hready hnext
        induction m with
        | zero => exact hn
        | succ m ih =>
            rw [Function.iterate_succ_apply']
            exact haccess x _ hprog.1 ih
      exact ⟨m, hstall, hready, ih _ (hprog.2 _) (haccess x _ hprog.1 hkept) hnext⟩

/-- What none of its accesses touches is kept by a program. -/
theorem Triple.frame (hidle : dev.Stable F)
    (haccess : ∀ x s, P x → F s → F (dev.cycle (some x) s)) {prog : Prog R W α} {P' : S → Prop}
    {Q : α → S → Prop} (hprog : prog.Only P) (h : Triple dev X P' prog Q) :
    Triple dev X (fun s => P' s ∧ F s) prog fun a s => Q a s ∧ F s := by
  rintro s ⟨hs, hF⟩
  exact wp_frame hidle haccess hprog hF (h s hs)

end Frame

/-- Up to `E`, the device passes an access that satisfies `P` like an idle cycle, and
never holds it up. -/
structure Unnoticed (dev : Device S R W) (P : Access R W → Prop) (E : S → S → Prop) : Prop where
  idle : ∀ s s', E s s' → E (dev.cycle none s) (dev.cycle none s')
  access : ∀ x s s', P x → E s s' → E (dev.cycle (some x) s) (dev.cycle none s')
  ready : ∀ x s, P x → dev.stalls x s = false

namespace Unnoticed

variable {dev : Device S R W} {P : Access R W → Prop} {E : S → S → Prop}

theorem step (h : Unnoticed dev P E) (gaps : ℕ → ℕ) {c : Config S R W α} {s : S}
    (hprog : c.prog.Only P) (hs : E c.device s) :
    (c.step dev gaps).prog.Only P ∧ E (c.step dev gaps).device (dev.cycle none s) := by
  obtain ⟨prog, wait, n, device⟩ := c
  cases prog with
  | ret a => exact ⟨hprog, h.idle device s hs⟩
  | exit => exact ⟨hprog, h.idle device s hs⟩
  | access x k =>
      cases wait with
      | succ w => exact ⟨hprog, h.idle device s hs⟩
      | zero =>
          rw [Config.step_of_ready (h.ready x device hprog.1)]
          exact ⟨hprog.2 _, h.access x device s hprog.1 hs⟩

/-- At every time the device is where an idle run of the same length leaves it. -/
theorem run (h : Unnoticed dev P E) (gaps : ℕ → ℕ) {prog : Prog R W α} (hprog : prog.Only P)
    {s s' : S} (hs : E s s') (t : ℕ) :
    E (Mmio.run dev gaps prog s t).device ((dev.cycle none)^[t] s') := by
  have hboth : (Mmio.run dev gaps prog s t).prog.Only P ∧
      E (Mmio.run dev gaps prog s t).device ((dev.cycle none)^[t] s') := by
    induction t with
    | zero => exact ⟨hprog, hs⟩
    | succ t ih =>
        rw [Mmio.run, Function.iterate_succ_apply', Function.iterate_succ_apply']
        exact h.step gaps ih.1 ih.2
  exact hboth.2

/-- A passive program ends. -/
theorem ends (h : Unnoticed dev P E) (gaps : ℕ → ℕ) {prog : Prog R W α} (hprog : prog.Only P)
    (s : S) : ∃ t, (∃ a, (Mmio.run dev gaps prog s t).prog = .ret a) ∨
      (Mmio.run dev gaps prog s t).prog = .exit := by
  have hwp : ∀ s, wp dev True prog (fun _ _ => True) s := by
    induction prog with
    | ret a => exact fun _ => trivial
    | exit => exact fun _ => trivial
    | access x k ih =>
        intro s n
        apply Device.completes_of_ready (h.ready x _ hprog.1)
        exact ih _ (hprog.2 _) _
  obtain ⟨t, c, rfl, ⟨a, hret, _⟩ | ⟨hexit, _⟩⟩ := wp_adequate (hwp s) gaps 0
  · exact ⟨t, Or.inl ⟨a, hret⟩⟩
  · exact ⟨t, Or.inr hexit⟩

end Unnoticed

end Mmio
