import CxlLite.Storage.OneAddress
import CxlLite.Storage.WriteBackCache

/-!
# Sweeps over a write-back cache

An access list is read off address by address: what an address stands for is its
last write, and whether it is resident depends on the last access to its index.
A sweep that repeats the addresses of the sweep before it hits exactly the
addresses that share their index with no other.
-/

namespace WriteBackCache

open DirectMapped

variable {A I T D : Type*} (g : Geometry A I T) [DecidableEq T]

section Contents

variable {g} {s : State A I T D} {r : Access A D} {a : A} {d : D}

/-- The state stands for `d` at `a`. -/
def State.Stands (g : Geometry A I T) (s : State A I T D) (a : A) (d : D) : Prop :=
  StandsAt g s.lines s.mem a d

/-- An access serves `a` with what it stands for. -/
theorem State.Stands.served (h : s.Stands g a d) :
    (if Resident g s.lines a then (s.lines (g.idx a)).data else s.mem a) = d := by
  split
  case isTrue hr => exact StandsAt.data_of_resident h hr
  case isFalse hr => exact StandsAt.mem_eq h fun hr' => absurd hr' hr

omit [DecidableEq T] in
theorem not_needsWriteBack_clean [DecidableEq I] (lines : I → Line T D) (b : A) :
    ¬ NeedsWriteBack g (Function.update lines (g.idx b) { lines (g.idx b) with dirty := false })
      b := by
  rintro ⟨_, hdirty, _⟩
  rw [Function.update_self] at hdirty
  cases hdirty

variable [DecidableEq A] [DecidableEq I]

/-- What an access writes back does not change what an address stands for. -/
theorem State.Stands.victim (h : s.Stands g a d) (hn : NeedsWriteBack g s.lines r.addr) :
    StandsAt g
      (Function.update s.lines (g.idx r.addr) { s.lines (g.idx r.addr) with dirty := false })
      (store s.mem (writeBack g s r)) a d := by
  rw [writeBack_eq_some g hn]
  exact StandsAt.writeBack h hn.1

/-- A write gives its address its word. -/
theorem stands_of_write (h : r.isWrite = true) : (step g s r).Stands g r.addr r.wdata := by
  have hdata : (lineNext g s r).data = r.wdata := by rw [lineNext, h]; rfl
  have hdirty : (lineNext g s r).dirty = true := by rw [lineNext, h]; rfl
  rw [← hdata]
  apply StandsAt.place_self rfl rfl
  intro hclean
  rw [hdirty] at hclean
  cases hclean

/-- An access leaves the other addresses alone. -/
theorem State.Stands.step_of_ne (h : s.Stands g a d) (hne : r.addr ≠ a) :
    (step g s r).Stands g a d := by
  by_cases hn : NeedsWriteBack g s.lines r.addr
  · have hplace := (h.victim hn).place_other hne (not_needsWriteBack_clean s.lines r.addr)
      (l := lineNext g s r) rfl rfl
    rwa [Function.update_idem] at hplace
  · rw [State.Stands, step, writeBack_eq_none g hn]
    exact StandsAt.place_other h hne hn rfl rfl

/-- A read leaves its own address alone. -/
theorem State.Stands.step_of_read (h : s.Stands g a d) (hr : r.isWrite = false)
    (ha : r.addr = a) : (step g s r).Stands g a d := by
  subst ha
  by_cases hres : Resident g s.lines r.addr
  · rw [step_of_read_resident g hr hres]
    exact h
  · have hdata : (lineNext g s r).data = store s.mem (writeBack g s r) r.addr := by
      simp only [lineNext, hr, if_neg hres, Bool.false_eq_true, if_false]
    -- The word is fetched after the victim has been written back.
    have hmem : store s.mem (writeBack g s r) r.addr = d := by
      by_cases hn : NeedsWriteBack g s.lines r.addr
      · apply (h.victim hn).mem_eq
        intro hr'
        exact absurd ((resident_clean g r.addr).mp hr') hres
      · rw [writeBack_eq_none g hn]
        exact StandsAt.mem_eq h fun hr' => absurd hr' hres
    rw [← hmem, ← hdata]
    apply StandsAt.place_self rfl rfl
    intro _
    exact hdata

theorem State.Stands.run_of_no_write {l : List (Access A D)} (h : s.Stands g a d)
    (hl : ∀ r ∈ l, r.isWrite = true → r.addr ≠ a) : (run g s l).Stands g a d := by
  induction l generalizing s with
  | nil => exact h
  | cons r l ih =>
      apply ih
      · by_cases ha : r.addr = a
        · apply h.step_of_read _ ha
          rw [Bool.eq_false_iff]
          intro hw
          exact hl r (List.mem_cons_self ..) hw ha
        · exact h.step_of_ne ha
      · intro r' hr'
        exact hl r' (List.mem_cons_of_mem r hr')

theorem run_append_list (s : State A I T D) (l l' : List (Access A D)) :
    run g s (l ++ l') = run g (run g s l) l' := by
  rw [run, List.foldl_append]
  rfl

/-- After a list of accesses an address stands for its last write, whatever the
cache held before. -/
theorem stands_of_lastWrite {l : List (Access A D)} (h : LastWrite l a d) :
    (run g s l).Stands g a d := by
  obtain ⟨before, r, after, rfl, hw, rfl, rfl, hno⟩ := h
  rw [run_append_list]
  exact (stands_of_write hw).run_of_no_write hno

end Contents

variable [DecidableEq A] [DecidableEq I]

section Residency

variable {g} {s : State A I T D} {b : A}

theorem resident_step (r : Access A D) :
    Resident g (step g s r).lines b ↔
      b = r.addr ∨ g.idx b ≠ g.idx r.addr ∧ Resident g s.lines b :=
  resident_place g rfl rfl b

/-- An address that a list does not access stays resident as long as its index is
left alone. -/
theorem resident_run {l : List (Access A D)} (h : ∀ r ∈ l, r.addr ≠ b) :
    Resident g (run g s l).lines b ↔
      (∀ r ∈ l, g.idx b ≠ g.idx r.addr) ∧ Resident g s.lines b := by
  induction l generalizing s with
  | nil => simp [run]
  | cons r l ih =>
      have hne : b ≠ r.addr := (h r (List.mem_cons_self ..)).symm
      rw [show run g s (r :: l) = run g (step g s r) l from rfl,
        ih fun r' hr' => h r' (List.mem_cons_of_mem r hr'), resident_step]
      simp only [hne, false_or, List.forall_mem_cons]
      tauto

end Residency

section Hits

/-- The number of accesses that find their address resident. -/
def hitCount : State A I T D → List (Access A D) → ℕ
  | _, [] => 0
  | s, r :: l => (if Resident g s.lines r.addr then 1 else 0) + hitCount (step g s r) l

theorem hitCount_append (s : State A I T D) (l l' : List (Access A D)) :
    hitCount g s (l ++ l') = hitCount g s l + hitCount g (run g s l) l' := by
  induction l generalizing s with
  | nil => simp [hitCount, run]
  | cons r l ih =>
      rw [List.cons_append, hitCount, hitCount, ih, Nat.add_assoc]
      rfl

variable {E : Type*} {key : E → A} {entries : List E} {first second : E → Access A D}
variable {s : State A I T D}

/-- A sweep over different addresses, none of which is resident, hits nothing. -/
theorem hitCount_of_fresh (hkey : ∀ e, (first e).addr = key e) (hnd : (entries.map key).Nodup)
    (hs : ∀ e ∈ entries, ¬ Resident g s.lines (key e)) :
    hitCount g s (entries.map first) = 0 := by
  induction entries generalizing s with
  | nil => rfl
  | cons e entries ih =>
      obtain ⟨hout, hnd⟩ := List.nodup_cons.mp hnd
      rw [List.map_cons, hitCount, hkey, if_neg (hs e (List.mem_cons_self ..)), Nat.zero_add]
      apply ih hnd
      intro e' he'
      rw [resident_step, hkey]
      rintro (heq | ⟨_, hr⟩)
      · exact hout (heq ▸ List.mem_map_of_mem he')
      · exact hs e' (List.mem_cons_of_mem e he') hr

/-- No other entry shares the index of `e`. -/
def Alone (key : E → A) (entries : List E) (e : E) : Prop :=
  ∀ e' ∈ entries, g.idx (key e') = g.idx (key e) → key e' = key e

instance (e : E) : Decidable (Alone g key entries e) :=
  inferInstanceAs (Decidable (∀ e' ∈ entries, _))

/-- Before the second access to an entry its address is resident if and only if the
entry stands alone. -/
theorem resident_of_sweep {pre post : List E} {e : E} (h₁ : ∀ e, (first e).addr = key e)
    (h₂ : ∀ e, (second e).addr = key e) (hnd : ((pre ++ e :: post).map key).Nodup) :
    Resident g (run g s ((pre ++ e :: post).map first ++ pre.map second)).lines (key e) ↔
      Alone g key (pre ++ e :: post) e := by
  have hlist : (pre ++ e :: post).map first ++ pre.map second =
      (pre.map first ++ [first e]) ++ (post.map first ++ pre.map second) := by
    simp
  have hout : ∀ e' ∈ pre ++ post, key e' ≠ key e := by
    intro e' he' heq
    have hnd' := (List.perm_middle.map key).nodup_iff.mp hnd
    exact (List.nodup_cons.mp hnd').1 (heq ▸ List.mem_map_of_mem he')
  have hrest : ∀ r ∈ post.map first ++ pre.map second, r.addr ≠ key e := by
    intro r hr
    rcases List.mem_append.mp hr with hr | hr
    · obtain ⟨e', he', rfl⟩ := List.mem_map.mp hr
      rw [h₁]
      exact hout e' (List.mem_append_right pre he')
    · obtain ⟨e', he', rfl⟩ := List.mem_map.mp hr
      rw [h₂]
      exact hout e' (List.mem_append_left post he')
  have hself : Resident g (run g s (pre.map first ++ [first e])).lines (key e) := by
    rw [run_append, resident_step, h₁]
    exact Or.inl rfl
  rw [hlist, run_append_list, resident_run hrest]
  constructor
  · rintro ⟨hall, _⟩ e' he' hidx
    by_contra hne
    rcases List.mem_append.mp he' with he' | he'
    · have hr := hall (second e')
        (List.mem_append_right _ (List.mem_map_of_mem he'))
      rw [h₂] at hr
      exact hr hidx.symm
    · rcases List.mem_cons.mp he' with rfl | he'
      · exact hne rfl
      · have hr := hall (first e') (List.mem_append_left _ (List.mem_map_of_mem he'))
        rw [h₁] at hr
        exact hr hidx.symm
  · intro halone
    refine ⟨?_, hself⟩
    intro r hr hidx
    apply hrest r hr
    rcases List.mem_append.mp hr with hr | hr
    · obtain ⟨e', he', rfl⟩ := List.mem_map.mp hr
      rw [h₁] at hidx ⊢
      exact halone e' (by simp [he']) hidx.symm
    · obtain ⟨e', he', rfl⟩ := List.mem_map.mp hr
      rw [h₂] at hidx ⊢
      exact halone e' (by simp [he']) hidx.symm

/-- The second sweep over different addresses hits exactly the entries that stand
alone, whatever the cache held before the first. -/
theorem hitCount_second (h₁ : ∀ e, (first e).addr = key e) (h₂ : ∀ e, (second e).addr = key e)
    (hnd : (entries.map key).Nodup) :
    hitCount g (run g s (entries.map first)) (entries.map second) =
      entries.countP fun e => decide (Alone g key entries e) := by
  suffices hsplit : ∀ pre post, entries = pre ++ post →
      hitCount g (run g s (entries.map first ++ pre.map second)) (post.map second) =
        post.countP fun e => decide (Alone g key entries e) by
    have h := hsplit [] entries rfl
    rwa [List.map_nil, List.append_nil] at h
  intro pre post
  induction post generalizing pre with
  | nil =>
      intro _
      rfl
  | cons e post ih =>
      intro heq
      have hres := resident_of_sweep g (s := s) h₁ h₂ (heq ▸ hnd)
      rw [← heq] at hres
      have hstep : step g (run g s (entries.map first ++ pre.map second)) (second e) =
          run g s (entries.map first ++ (pre ++ [e]).map second) := by
        rw [List.map_append, ← List.append_assoc]
        exact (run_append g s _ (second e)).symm
      rw [List.map_cons, hitCount, h₂, hstep, ih (pre ++ [e]) (by simp [heq]), List.countP_cons,
        Nat.add_comm]
      simp only [hres, decide_eq_true_eq]

end Hits

end WriteBackCache
