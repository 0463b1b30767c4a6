import CxlLite.Storage.DirectMapped

/-!
# One address of a direct-mapped cache

What lines and memory say about one address survives every operation for the
other addresses, whether or not those are treated with care.
-/

namespace DirectMapped

variable {A I T D : Type*} (g : Geometry A I T) [DecidableEq T]

/-- Address `a` stands for `d`, and a clean line of `a` agrees with its backing word. -/
def StandsAt (lines : I → Line T D) (mem : A → D) (a : A) (d : D) : Prop :=
  (Resident g lines a → (lines (g.idx a)).dirty = false → (lines (g.idx a)).data = mem a) ∧
    view g lines mem a = d

namespace StandsAt

variable {g} {lines : I → Line T D} {mem : A → D} {a : A} {d : D}

theorem data_of_resident (h : StandsAt g lines mem a d) (hr : Resident g lines a) :
    (lines (g.idx a)).data = d := by
  rw [← h.2, view_of_resident g hr]

/-- The backing word is up to date unless a dirty line hides it. -/
theorem mem_eq (h : StandsAt g lines mem a d)
    (hc : Resident g lines a → (lines (g.idx a)).dirty = false) : mem a = d := by
  rw [← h.2]
  by_cases hr : Resident g lines a
  · rw [view_of_resident g hr]
    exact (h.1 hr (hc hr)).symm
  · rw [view_of_not_resident g hr]

theorem of_invalid (h : ∀ i, (lines i).valid = false) : StandsAt g lines mem a (mem a) := by
  have hno : ¬ Resident g lines a := by
    intro hr
    simp [Resident, h] at hr
  exact ⟨fun hr => absurd hr hno, view_of_not_resident g hno⟩

/-- Only the line of `a` and the backing word of `a` matter. -/
theorem congr (h : StandsAt g lines mem a d) {lines' : I → Line T D} {mem' : A → D}
    (hl : lines' (g.idx a) = lines (g.idx a)) (hm : mem' a = mem a) :
    StandsAt g lines' mem' a d := by
  constructor
  · intro hr
    rw [Resident, hl] at hr
    rw [hl, hm]
    exact h.1 hr
  · rw [view_congr g hl hm, h.2]

/-- A line placed for `a` gives `a` its word. -/
theorem place_self [DecidableEq I] {l : Line T D} (hv : l.valid = true) (ht : l.tag = g.tag a)
    (hd : l.dirty = false → l.data = mem a) :
    StandsAt g (Function.update lines (g.idx a) l) mem a l.data := by
  have hr : Resident g (Function.update lines (g.idx a) l) a :=
    (resident_place g hv ht a).mpr (Or.inl rfl)
  constructor
  · intro _
    rw [Function.update_self]
    exact hd
  · rw [view_of_resident g hr, Function.update_self]

/-- A line placed for another address leaves `a` alone, provided the line that it
displaces has nothing left to write back. -/
theorem place_other [DecidableEq I] (h : StandsAt g lines mem a d) {b : A} (hba : b ≠ a)
    (hn : ¬ NeedsWriteBack g lines b) {l : Line T D} (hv : l.valid = true)
    (ht : l.tag = g.tag b) : StandsAt g (Function.update lines (g.idx b) l) mem a d := by
  by_cases hi : g.idx a = g.idx b
  · have hgone : ¬ Resident g (Function.update lines (g.idx b) l) a := by
      intro hr
      rcases (resident_place g hv ht a).mp hr with hab | ⟨hne, _⟩
      · exact hba hab.symm
      · exact hne hi
    have hclean : Resident g lines a → (lines (g.idx a)).dirty = false := by
      intro hr
      rw [Bool.eq_false_iff]
      intro hdirty
      apply hn
      rw [NeedsWriteBack, ← hi]
      refine ⟨hr.1, hdirty, ?_⟩
      rintro ⟨_, htag⟩
      rw [← hi, hr.2] at htag
      exact hba (g.ext_idx_tag hi.symm htag.symm)
    refine ⟨fun hr => absurd hr hgone, ?_⟩
    rw [view_of_not_resident g hgone]
    exact h.mem_eq hclean
  · exact h.congr (Function.update_of_ne hi _ _) rfl

variable [DecidableEq A]

/-- Writing any valid line back to its own address leaves `a` alone. -/
theorem writeBack [DecidableEq I] (h : StandsAt g lines mem a d) {i : I}
    (hv : (lines i).valid = true) :
    StandsAt g (Function.update lines i { lines i with dirty := false })
      (Function.update mem (g.addr (lines i).tag i) (lines i).data) a d := by
  refine ⟨?_, ?_⟩
  · intro hr hdirty
    have hr' := (resident_clean g a).mp hr
    rw [data_clean]
    by_cases hi : g.idx a = i
    · subst hi
      rw [addr_of_resident g hr', Function.update_self]
    · rw [Function.update_of_ne hi] at hdirty
      rw [Function.update_of_ne, h.1 hr' hdirty]
      rintro rfl
      exact hi (g.idx_addr _ _)
  · rw [view_writeBack g hv, h.2]

theorem store_self (hr : ¬ Resident g lines a) :
    StandsAt g lines (Function.update mem a d) a d := by
  refine ⟨fun h => absurd h hr, ?_⟩
  rw [view_of_not_resident g hr, Function.update_self]

theorem store_other (h : StandsAt g lines mem a d) {b : A} (hba : b ≠ a) (e : D) :
    StandsAt g lines (Function.update mem b e) a d :=
  h.congr rfl (Function.update_of_ne hba.symm _ _)

end StandsAt

end DirectMapped
