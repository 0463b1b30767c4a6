import Mathlib.Data.List.Basic

/-!
# A priority scan

The scan walks a list once and keeps the first entry that satisfies a test, in
the form of a flag and a value.
-/

namespace Synchronous

variable {α : Type*}

/-- One scan step: a found entry is kept, otherwise the current one is tested. -/
def scanStep (p : α → Bool) (acc : Bool × α) (a : α) : Bool × α :=
  if !acc.1 && p a then (true, a) else acc

/-- Scan `l` for its first entry satisfying `p`, starting from `(false, dflt)`. -/
def firstMatch (p : α → Bool) (dflt : α) (l : List α) : Bool × α :=
  l.foldl (scanStep p) (false, dflt)

theorem foldl_scanStep_found (p : α → Bool) (a : α) (l : List α) :
    l.foldl (scanStep p) (true, a) = (true, a) := by
  induction l with
  | nil => rfl
  | cons b rest ih => simpa [scanStep] using ih

theorem firstMatch_eq_find? (p : α → Bool) (dflt : α) (l : List α) :
    firstMatch p dflt l = match l.find? p with
      | some a => (true, a)
      | none => (false, dflt) := by
  induction l with
  | nil => rfl
  | cons b rest ih =>
      cases hb : p b with
      | true =>
          have hstep : scanStep p (false, dflt) b = (true, b) := by simp [scanStep, hb]
          rw [firstMatch, List.foldl_cons, hstep, foldl_scanStep_found]
          simp [hb]
      | false =>
          have hstep : scanStep p (false, dflt) b = (false, dflt) := by simp [scanStep, hb]
          rw [firstMatch, List.foldl_cons, hstep, ← firstMatch, ih]
          simp [hb]

/-- A found entry satisfies the test. -/
theorem firstMatch_sound {p : α → Bool} {dflt : α} {l : List α}
    (h : (firstMatch p dflt l).1 = true) : p (firstMatch p dflt l).2 = true := by
  rw [firstMatch_eq_find?] at h ⊢
  cases hf : l.find? p with
  | none => simp [hf] at h
  | some a => exact List.find?_some hf

/-- The scan finds something exactly when the list has a satisfying entry. -/
theorem firstMatch_found_iff {p : α → Bool} {dflt : α} {l : List α} :
    (firstMatch p dflt l).1 = true ↔ ∃ a ∈ l, p a = true := by
  rw [firstMatch_eq_find?]
  cases hf : l.find? p with
  | none => simpa using hf
  | some a => simpa using ⟨a, List.mem_of_find?_eq_some hf, List.find?_some hf⟩

/-- In an ordered list the scan finds the least satisfying entry. -/
theorem firstMatch_least {p : α → Bool} {dflt : α} {l : List α} {r : α → α → Prop}
    (hrefl : ∀ a, r a a) (hl : l.Pairwise r) {a : α} (ha : a ∈ l) (hp : p a = true) :
    r (firstMatch p dflt l).2 a := by
  rw [firstMatch_eq_find?]
  induction l with
  | nil => cases ha
  | cons b rest ih =>
      obtain ⟨hb, hrest⟩ := List.pairwise_cons.mp hl
      cases hpb : p b with
      | true =>
          simp only [List.find?_cons, hpb]
          rcases List.mem_cons.mp ha with rfl | hmem
          · exact hrefl a
          · exact hb a hmem
      | false =>
          have hne : a ≠ b := by
            rintro rfl
            rw [hp] at hpb
            cases hpb
          simp only [List.find?_cons, hpb]
          exact ih hrest ((List.mem_cons.mp ha).resolve_left hne)

end Synchronous
