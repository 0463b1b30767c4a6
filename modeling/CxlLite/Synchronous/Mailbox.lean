import Mathlib.Data.List.Basic

/-!
# A one-place mailbox

At most one message is put and at most one is got per cycle. The messages put
are always the messages got, in order, followed by the one that is held.
-/

namespace Synchronous

variable {α : Type*}

/-- The messages of the cycles before `t`, in order. -/
def history (e : ℕ → Option α) (t : ℕ) : List α := (List.range t).filterMap e

@[simp] theorem history_zero (e : ℕ → Option α) : history e 0 = [] := rfl

theorem history_succ (e : ℕ → Option α) (t : ℕ) :
    history e (t + 1) = history e t ++ (e t).toList := by
  rw [history, List.range_succ, List.filterMap_append]
  cases h : e t <;> simp [history, h]

/-- `held` is filled by `put` while empty and emptied by `got`. -/
structure Mailbox (put got held : ℕ → Option α) : Prop where
  init : held 0 = none
  put_next : ∀ t m, put t = some m → held t = none ∧ got t = none ∧ held (t + 1) = some m
  got_next : ∀ t m, got t = some m → held t = some m ∧ put t = none ∧ held (t + 1) = none
  keep : ∀ t, put t = none → got t = none → held (t + 1) = held t

namespace Mailbox

variable {put got held : ℕ → Option α}

theorem history_eq (b : Mailbox put got held) (t : ℕ) :
    history put t = history got t ++ (held t).toList := by
  induction t with
  | zero => simp [b.init]
  | succ t ih =>
      rw [history_succ, history_succ, ih]
      cases hp : put t with
      | some m =>
          obtain ⟨hh, hg, hn⟩ := b.put_next t m hp
          simp [hh, hg, hn]
      | none =>
          cases hg : got t with
          | some m =>
              obtain ⟨hh, _, hn⟩ := b.got_next t m hg
              simp [hh, hn]
          | none => simp [b.keep t hp hg]

/-- The messages got are the first of the messages put. -/
theorem got_isPrefix_put (b : Mailbox put got held) (t : ℕ) : history got t <+: history put t :=
  ⟨(held t).toList, (b.history_eq t).symm⟩

/-- At most one message is held back. -/
theorem put_length_le (b : Mailbox put got held) (t : ℕ) :
    (history put t).length ≤ (history got t).length + 1 := by
  rw [b.history_eq, List.length_append]
  cases held t <;> simp

end Mailbox

end Synchronous
