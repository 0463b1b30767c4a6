import CxlLite.Mmio.Logic

/-!
# A device on a larger bus

A processor reaches several devices over one bus. A program for one of them, with its
registers renamed, does on the whole what it does on its device alone, and everything
that survives the idle cycles of the others is kept.
-/

namespace Mmio

universe u

variable {S S' T : Type*} {R R' W α β : Type u}

/-- The access under the register names of the bus. -/
def Access.on (f : R → R') : Access R W → Access R' W
  | .write r v => .write (f r) v
  | .read r => .read (f r)

/-- The program under the register names of the bus. -/
def Prog.on (f : R → R') : Prog R W α → Prog R' W α
  | .ret a => .ret a
  | .exit => .exit
  | .access x k => .access (x.on f) fun v => (k v).on f

/-- Seen through `π`, the accesses under the names `f` do on the bus what they do on `dev`.
They keep the frame `F`, as do idle cycles. -/
structure Hosts (dev : Device S R W) (bus : Device T R' W) (f : R → R') (π : T → S)
    (F : T → Prop) : Prop where
  idle : ∀ s, π (bus.cycle none s) = dev.cycle none (π s)
  access : ∀ (x : Access R W) s, π (bus.cycle (some (x.on f)) s) = dev.cycle (some x) (π s)
  stalls : ∀ (x : Access R W) s, bus.stalls (x.on f) s = dev.stalls x (π s)
  data : ∀ (x : Access R W) s, bus.data (x.on f) s = dev.data x (π s)
  frame_idle : ∀ s, F s → F (bus.cycle none s)
  frame_access : ∀ (x : Access R W) s, F s → F (bus.cycle (some (x.on f)) s)

namespace Hosts

variable {dev : Device S R W} {bus : Device T R' W} {f : R → R'} {π : T → S} {F : T → Prop}
  {X : Prop}

theorem iterate_idle (h : Hosts dev bus f π F) (n : ℕ) {s : T} (hs : F s) :
    π ((bus.cycle none)^[n] s) = (dev.cycle none)^[n] (π s) ∧ F ((bus.cycle none)^[n] s) := by
  induction n with
  | zero => exact ⟨rfl, hs⟩
  | succ n ih =>
      rw [Function.iterate_succ_apply', Function.iterate_succ_apply', ← ih.1]
      exact ⟨h.idle _, h.frame_idle _ ih.2⟩

theorem iterate_access (h : Hosts dev bus f π F) (x : Access R W) (n : ℕ) {s : T} (hs : F s) :
    π ((bus.cycle (some (x.on f)))^[n] s) = (dev.cycle (some x))^[n] (π s) ∧
      F ((bus.cycle (some (x.on f)))^[n] s) := by
  induction n with
  | zero => exact ⟨rfl, hs⟩
  | succ n ih =>
      rw [Function.iterate_succ_apply', Function.iterate_succ_apply', ← ih.1]
      exact ⟨h.access x _, h.frame_access x _ ih.2⟩

/-- An access that completes on the device completes on the bus. -/
theorem completes (h : Hosts dev bus f π F) {x : Access R W} {P : S → Prop} {s : T} (hs : F s)
    (hx : dev.Completes x P (π s)) : bus.Completes (x.on f) (fun t => P (π t) ∧ F t) s := by
  obtain ⟨n, hstall, hready, hP⟩ := hx
  obtain ⟨hπ, hF⟩ := h.iterate_access x n hs
  refine ⟨n, ?_, ?_, ?_, hF⟩
  · intro j hj
    rw [h.stalls, (h.iterate_access x j hs).1]
    exact hstall j hj
  · rw [h.stalls, hπ]
    exact hready
  · rw [hπ]
    exact hP

/-- The frame rule. -/
theorem wp (h : Hosts dev bus f π F) {prog : Prog R W α} {Q : α → S → Prop} {s : T} (hs : F s)
    (hprog : Mmio.wp dev X prog Q (π s)) :
    Mmio.wp bus X (prog.on f) (fun a t => Q a (π t) ∧ F t) s := by
  induction prog generalizing s with
  | ret a => exact ⟨hprog, hs⟩
  | exit => exact hprog
  | access x k ih =>
      intro n
      obtain ⟨hπ, hF⟩ := h.iterate_idle n hs
      have hn := hprog n
      rw [← hπ] at hn
      apply (h.completes hF hn).mono
      rintro t ⟨ht, hFt⟩
      apply ih _ (h.frame_access x t hFt)
      rw [h.data, h.access]
      exact ht

theorem triple (h : Hosts dev bus f π F) {prog : Prog R W α} {P : S → Prop} {Q : α → S → Prop}
    (hprog : Triple dev X P prog Q) :
    Triple bus X (fun t => P (π t) ∧ F t) (prog.on f) fun a t => Q a (π t) ∧ F t := by
  rintro t ⟨hP, hF⟩
  exact h.wp hF (hprog _ hP)

end Hosts

section Beside

/-- The access goes to the left device or to the right one. -/
def Access.side : Access (R ⊕ R') W → Access R W ⊕ Access R' W
  | .write (.inl r) v => .inl (.write r v)
  | .write (.inr r) v => .inr (.write r v)
  | .read (.inl r) => .inl (.read r)
  | .read (.inr r) => .inr (.read r)

@[simp] theorem Access.side_inl (x : Access R W) :
    Access.side (x.on (Sum.inl : R → R ⊕ R')) = .inl x := by
  cases x <;> rfl

@[simp] theorem Access.side_inr (x : Access R' W) :
    Access.side (x.on (Sum.inr : R' → R ⊕ R')) = .inr x := by
  cases x <;> rfl

/-- Two devices side by side. An access to one is an idle cycle of the other. -/
def Device.beside (dev : Device S R W) (dev' : Device S' R' W) : Device (S × S') (R ⊕ R') W where
  cycle x s :=
    match x.map Access.side with
    | none => (dev.cycle none s.1, dev'.cycle none s.2)
    | some (.inl y) => (dev.cycle (some y) s.1, dev'.cycle none s.2)
    | some (.inr y) => (dev.cycle none s.1, dev'.cycle (some y) s.2)
  stalls x s :=
    match x.side with
    | .inl y => dev.stalls y s.1
    | .inr y => dev'.stalls y s.2
  data x s :=
    match x.side with
    | .inl y => dev.data y s.1
    | .inr y => dev'.data y s.2

variable {dev : Device S R W} {dev' : Device S' R' W} {X : Prop}

theorem hosts_left {F : S' → Prop} (hF : dev'.Stable F) :
    Hosts dev (dev.beside dev') Sum.inl Prod.fst fun t => F t.2 where
  idle _ := rfl
  access x s := by simp [Device.beside]
  stalls x s := by simp [Device.beside]
  data x s := by simp [Device.beside]
  frame_idle s hs := hF _ hs
  frame_access x s hs := by
    have hnext := hF _ hs
    simpa [Device.beside] using hnext

theorem hosts_right {F : S → Prop} (hF : dev.Stable F) :
    Hosts dev' (dev.beside dev') Sum.inr Prod.snd fun t => F t.1 where
  idle _ := rfl
  access x s := by simp [Device.beside]
  stalls x s := by simp [Device.beside]
  data x s := by simp [Device.beside]
  frame_idle s hs := hF _ hs
  frame_access x s hs := by
    have hnext := hF _ hs
    simpa [Device.beside] using hnext

/-- A program for the left device keeps what is stable on the right. -/
theorem Triple.left {prog : Prog R W α} {P : S → Prop} {Q : α → S → Prop} {F : S' → Prop}
    (hprog : Triple dev X P prog Q) (hF : dev'.Stable F) :
    Triple (dev.beside dev') X (fun t => P t.1 ∧ F t.2) (prog.on Sum.inl)
      fun a t => Q a t.1 ∧ F t.2 := (hosts_left hF).triple hprog

theorem Triple.right {prog : Prog R' W α} {P : S' → Prop} {Q : α → S' → Prop} {F : S → Prop}
    (hprog : Triple dev' X P prog Q) (hF : dev.Stable F) :
    Triple (dev.beside dev') X (fun t => F t.1 ∧ P t.2) (prog.on Sum.inr)
      fun a t => F t.1 ∧ Q a t.2 := by
  apply ((hosts_right hF).triple hprog).conseq
  · exact fun t ht => ht.symm
  · exact fun a t ht => ht.symm

end Beside

end Mmio
