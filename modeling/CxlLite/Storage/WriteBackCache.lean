import CxlLite.Storage.DirectMapped
import Mathlib.Data.List.Induction

/-!
# A reference write-back cache

A direct-mapped, write-allocate, write-back cache serves one access after the
other. Its traffic is the list of words that it writes to the backing memory:
one word for each access that displaces an unwritten line, and none otherwise.
-/

namespace WriteBackCache

open DirectMapped

variable {A I T D : Type*}

/-- One access to the cache. -/
structure Access (A D : Type*) where
  addr : A
  isWrite : Bool
  wdata : D

/-- Lines and backing memory. -/
structure State (A I T D : Type*) where
  lines : I → Line T D
  mem : A → D

/-- The backing memory after an optional write. -/
def store [DecidableEq A] (mem : A → D) : Option (A × D) → A → D
  | none => mem
  | some (a, d) => Function.update mem a d

section Definitions

variable (g : Geometry A I T) [DecidableEq A] [DecidableEq I] [DecidableEq T]
variable (s : State A I T D) (r : Access A D)

/-- The write that an access causes: the word of the line that it displaces, at
the address that the line stands for. -/
def writeBack : Option (A × D) :=
  if NeedsWriteBack g s.lines r.addr then
    some (g.addr (s.lines (g.idx r.addr)).tag (g.idx r.addr), (s.lines (g.idx r.addr)).data)
  else none

/-- The line that an access leaves at its index. -/
def lineNext : Line T D :=
  { valid := true
    tag := g.tag r.addr
    data := if r.isWrite then r.wdata
      else if Resident g s.lines r.addr then (s.lines (g.idx r.addr)).data
      else store s.mem (writeBack g s r) r.addr
    dirty := if r.isWrite then true
      else if Resident g s.lines r.addr then (s.lines (g.idx r.addr)).dirty else false }

def step : State A I T D where
  lines := Function.update s.lines (g.idx r.addr) (lineNext g s r)
  mem := store s.mem (writeBack g s r)

/-- The state after a list of accesses. -/
def run (l : List (Access A D)) : State A I T D := l.foldl (step g) s

/-- The words written to the backing memory by a list of accesses, in order. -/
def traffic : State A I T D → List (Access A D) → List (A × D)
  | _, [] => []
  | s, r :: l => (writeBack g s r).toList ++ traffic (step g s r) l

end Definitions

/-- The last write to `a` in the list carried `d`. -/
def LastWrite (l : List (Access A D)) (a : A) (d : D) : Prop :=
  ∃ before r after, l = before ++ r :: after ∧ r.isWrite = true ∧ r.addr = a ∧ r.wdata = d ∧
    ∀ r' ∈ after, r'.isWrite = true → r'.addr ≠ a

theorem LastWrite.of_write (l : List (Access A D)) {r : Access A D} (h : r.isWrite = true) :
    LastWrite (l ++ [r]) r.addr r.wdata :=
  ⟨l, r, [], rfl, h, rfl, rfl, fun _ hr => by cases hr⟩

theorem LastWrite.append {l : List (Access A D)} {a : A} {d : D} (h : LastWrite l a d)
    {r : Access A D} (hr : r.isWrite = true → r.addr ≠ a) : LastWrite (l ++ [r]) a d := by
  obtain ⟨before, w, after, rfl, hw, ha, hd, hno⟩ := h
  refine ⟨before, w, after ++ [r], by simp, hw, ha, hd, ?_⟩
  intro r' hr'
  rcases List.mem_append.mp hr' with hmem | hmem
  · exact hno r' hmem
  · rw [List.mem_singleton.mp hmem]
    exact hr

section Lemmas

variable (g : Geometry A I T) [DecidableEq T] {s : State A I T D} {r : Access A D}

theorem writeBack_eq_some (h : NeedsWriteBack g s.lines r.addr) :
    writeBack g s r =
      some (g.addr (s.lines (g.idx r.addr)).tag (g.idx r.addr),
        (s.lines (g.idx r.addr)).data) := if_pos h

theorem writeBack_eq_none (h : ¬ NeedsWriteBack g s.lines r.addr) : writeBack g s r = none :=
  if_neg h

/-- What is written back depends on the address of the access only. -/
theorem writeBack_congr {r' : Access A D} (h : r'.addr = r.addr) :
    writeBack g s r' = writeBack g s r := by
  rw [writeBack, writeBack, h]

variable [DecidableEq A] [DecidableEq I]

theorem run_append (s : State A I T D) (l : List (Access A D)) (r : Access A D) :
    run g s (l ++ [r]) = step g (run g s l) r := by
  simp [run]

theorem traffic_append (s : State A I T D) (l : List (Access A D)) (r : Access A D) :
    traffic g s (l ++ [r]) = traffic g s l ++ (writeBack g (run g s l) r).toList := by
  induction l generalizing s with
  | nil => simp [traffic, run]
  | cons r' l ih =>
      rw [List.cons_append, traffic, traffic, ih, List.append_assoc]
      rfl

/-- A read that finds its address resident changes nothing. -/
theorem step_of_read_resident (hw : r.isWrite = false) (hr : Resident g s.lines r.addr) :
    step g s r = s := by
  have hline : lineNext g s r = s.lines (g.idx r.addr) := by
    obtain ⟨hvalid, htag⟩ := hr
    cases hl : s.lines (g.idx r.addr) with
    | mk valid dirty tag data => simp_all [lineNext, Resident]
  have hnone := writeBack_eq_none g (r := r) fun hn => hn.2.2 hr
  rw [step, hline, Function.update_eq_self, hnone]
  rfl

/-- An access leaves the backing word of its own address. -/
theorem step_mem_self : (step g s r).mem r.addr = s.mem r.addr := by
  rw [step, writeBack]
  split
  case isTrue hn =>
    apply Function.update_of_ne
    intro heq
    apply hn.2.2
    refine ⟨hn.1, ?_⟩
    have htag := congrArg g.tag heq
    rw [g.tag_addr] at htag
    exact htag.symm
  case isFalse => rfl

/-- Every dirty line holds the last write to the address that it stands for. -/
theorem lastWrite_of_dirty (hs : ∀ i, (s.lines i).valid = false) (l : List (Access A D)) :
    ∀ i, ((run g s l).lines i).valid = true → ((run g s l).lines i).dirty = true →
      LastWrite l (g.addr ((run g s l).lines i).tag i) ((run g s l).lines i).data := by
  induction l using List.reverseRecOn with
  | nil =>
      intro i hv
      rw [run, List.foldl_nil, hs i] at hv
      cases hv
  | append_singleton l r ih =>
      intro i
      rw [run_append]
      by_cases hi : i = g.idx r.addr
      · subst hi
        simp only [step, lineNext, Function.update_self, g.addr_tag_idx]
        intro _ hdirty
        cases hw : r.isWrite with
        | true => simpa using LastWrite.of_write l hw
        | false =>
            by_cases hr : Resident g (run g s l).lines r.addr
            · simp only [hw, hr, Bool.false_eq_true, if_false, if_true] at hdirty ⊢
              have hline := ih (g.idx r.addr) hr.1 hdirty
              rw [addr_of_resident g hr] at hline
              exact hline.append (by simp [hw])
            · simp [hw, hr] at hdirty
      · simp only [step, Function.update_of_ne hi]
        intro hv hdirty
        apply (ih i hv hdirty).append
        rintro _ haddr
        exact hi (by rw [haddr, g.idx_addr])

/-- An access writes back the last word written to the address that it displaces. -/
theorem lastWrite_of_writeBack (hs : ∀ i, (s.lines i).valid = false) {l : List (Access A D)}
    {a : A} {d : D} (h : writeBack g (run g s l) r = some (a, d)) : LastWrite l a d := by
  rw [writeBack] at h
  split at h
  case isTrue hneed =>
    obtain ⟨rfl, rfl⟩ := Prod.mk.inj (Option.some.inj h)
    exact lastWrite_of_dirty g hs l _ hneed.1 hneed.2.1
  case isFalse => cases h

end Lemmas

end WriteBackCache
