import Mathlib.Logic.Function.Iterate

/-!
# Programs over memory-mapped registers

A program is a tree of register accesses in which the word on the data lines
decides how it goes on. A device moves by one clock cycle at a time and may
hold an access up. The processor may let any number of cycles pass before each
access that it makes.
-/

namespace Mmio

universe u

/-- An access to a register file. -/
inductive Access (R W : Type u) where
  | write (r : R) (v : W)
  | read (r : R)

/-- A clocked device behind a register file. -/
structure Device (S : Type*) (R W : Type u) where
  /-- One cycle with the access, or with none, on the bus. -/
  cycle : Option (Access R W) → S → S
  /-- The access is held up in this cycle. -/
  stalls : Access R W → S → Bool
  /-- The data lines during the access. -/
  data : Access R W → S → W

/-- A program that returns a value of type `α`, or exits. -/
inductive Prog (R W α : Type u) where
  | ret (a : α)
  | exit
  | access (x : Access R W) (k : W → Prog R W α)

namespace Prog

variable {R W α β σ : Type u}

def bind : Prog R W α → (α → Prog R W β) → Prog R W β
  | ret a, f => f a
  | exit, _ => exit
  | access x k, f => access x fun v => (k v).bind f

instance : Monad (Prog R W) where
  pure := ret
  bind := bind

def read (r : R) : Prog R W W := access (.read r) ret

def write (r : R) (v : W) : Prog R W PUnit := access (.write r v) fun _ => ret ⟨⟩

/-- Repeats `body` until it returns a result, `n` times at most, and exits when none did. -/
def loop (body : σ → Prog R W (σ ⊕ α)) : ℕ → σ → Prog R W α
  | 0, _ => exit
  | n + 1, x => (body x).bind fun
      | .inl x' => loop body n x'
      | .inr a => ret a

/-- Reads `r` until its value passes the test, `n` times at most. -/
def poll (r : R) (pass : W → Bool) (n : ℕ) : Prog R W W :=
  loop (fun _ => access (.read r) fun v => ret (if pass v then .inr v else .inl PUnit.unit)) n
    PUnit.unit

/-- Runs the listed programs in order and collects what they return. -/
def sequence : List (Prog R W α) → Prog R W (List α)
  | [] => ret []
  | p :: ps => p.bind fun a => (sequence ps).bind fun as => ret (a :: as)

end Prog

/-- A program on a processor, the idle cycles left before its next access, the
number of accesses made, and the device. -/
structure Config (S : Type*) (R W α : Type u) where
  prog : Prog R W α
  wait : ℕ
  accesses : ℕ
  device : S

variable {S : Type*} {R W α : Type u}

/-- One clock cycle. Before its access number `n` the processor idles for `gaps n` cycles. -/
def Config.step (dev : Device S R W) (gaps : ℕ → ℕ) (c : Config S R W α) : Config S R W α :=
  match c.prog, c.wait with
  | .access x k, 0 =>
      if dev.stalls x c.device then { c with device := dev.cycle (some x) c.device }
      else
        { prog := k (dev.data x c.device)
          wait := gaps (c.accesses + 1)
          accesses := c.accesses + 1
          device := dev.cycle (some x) c.device }
  | .access _ _, n + 1 => { c with wait := n, device := dev.cycle none c.device }
  | _, _ => { c with device := dev.cycle none c.device }

/-- A program before its access number `n`. -/
def Config.enter (gaps : ℕ → ℕ) (n : ℕ) (prog : Prog R W α) (s : S) : Config S R W α :=
  ⟨prog, gaps n, n, s⟩

/-- The execution of a program from a given device state. -/
def run (dev : Device S R W) (gaps : ℕ → ℕ) (prog : Prog R W α) (s : S) (t : ℕ) :
    Config S R W α :=
  (Config.step dev gaps)^[t] (Config.enter gaps 0 prog s)

section Steps

variable {dev : Device S R W} {gaps : ℕ → ℕ} {x : Access R W} {k : W → Prog R W α} {n : ℕ} {s : S}

theorem Config.step_of_wait (w : ℕ) :
    Config.step dev gaps ⟨.access x k, w + 1, n, s⟩ = ⟨.access x k, w, n, dev.cycle none s⟩ := rfl

theorem Config.step_of_stall (h : dev.stalls x s = true) :
    Config.step dev gaps ⟨.access x k, 0, n, s⟩ = ⟨.access x k, 0, n, dev.cycle (some x) s⟩ :=
  if_pos h

theorem Config.step_of_ready (h : dev.stalls x s = false) :
    Config.step dev gaps ⟨.access x k, 0, n, s⟩ =
      Config.enter gaps (n + 1) (k (dev.data x s)) (dev.cycle (some x) s) :=
  if_neg (by simp [h])

/-- The idle cycles before an access pass one by one. -/
theorem Config.steps_of_wait (w : ℕ) (s : S) :
    (Config.step dev gaps)^[w] ⟨.access x k, w, n, s⟩ =
      ⟨.access x k, 0, n, (dev.cycle none)^[w] s⟩ := by
  induction w generalizing s with
  | zero => rfl
  | succ w ih =>
      rw [Function.iterate_succ_apply, Config.step_of_wait, ih, ← Function.iterate_succ_apply]

/-- An access stays on the bus while it is held up. -/
theorem Config.steps_of_stall (m : ℕ)
    (h : ∀ j < m, dev.stalls x ((dev.cycle (some x))^[j] s) = true) :
    (Config.step dev gaps)^[m] ⟨.access x k, 0, n, s⟩ =
      ⟨.access x k, 0, n, (dev.cycle (some x))^[m] s⟩ := by
  induction m with
  | zero => rfl
  | succ m ih =>
      have hbefore := ih fun j hj => h j (Nat.lt_succ_of_lt hj)
      rw [Function.iterate_succ_apply', hbefore, Config.step_of_stall (h m (Nat.lt_succ_self m)),
        Function.iterate_succ_apply' (dev.cycle (some x))]

end Steps

end Mmio
