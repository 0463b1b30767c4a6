import Mathlib.Logic.Function.Basic

/-!
# Direct-mapped write-back lines over a backing memory

The contents a reader should see are the line's data where the address is
resident and the backing word everywhere else. Each operation on lines and
memory is described by what it does to that view.
-/

namespace DirectMapped

/-- How an address splits into a line index and the tag kept beside the line. -/
structure Geometry (A I T : Type*) where
  idx : A → I
  tag : A → T
  addr : T → I → A
  addr_tag_idx : ∀ a, addr (tag a) (idx a) = a
  idx_addr : ∀ t i, idx (addr t i) = i
  tag_addr : ∀ t i, tag (addr t i) = t

/-- One cache line holding one word. -/
structure Line (T D : Type*) where
  valid : Bool
  dirty : Bool
  tag : T
  data : D

variable {A I T D : Type*} (g : Geometry A I T)

theorem Geometry.ext_idx_tag {a b : A} (hi : g.idx a = g.idx b) (ht : g.tag a = g.tag b) :
    a = b := by
  rw [← g.addr_tag_idx a, ← g.addr_tag_idx b, hi, ht]

/-- The line of `a` currently holds `a`. -/
def Resident (lines : I → Line T D) (a : A) : Prop :=
  (lines (g.idx a)).valid = true ∧ (lines (g.idx a)).tag = g.tag a

instance [DecidableEq T] (lines : I → Line T D) (a : A) : Decidable (Resident g lines a) :=
  inferInstanceAs (Decidable (_ ∧ _))

/-- A valid line holds the address that its tag and index stand for. -/
theorem resident_addr {lines : I → Line T D} {i : I} (h : (lines i).valid = true) :
    Resident g lines (g.addr (lines i).tag i) := by
  simp only [Resident, g.idx_addr, g.tag_addr, h, and_self]

/-- The line of `a` holds unwritten data of another address. -/
def NeedsWriteBack (lines : I → Line T D) (a : A) : Prop :=
  (lines (g.idx a)).valid = true ∧ (lines (g.idx a)).dirty = true ∧ ¬ Resident g lines a

instance [DecidableEq T] (lines : I → Line T D) (a : A) : Decidable (NeedsWriteBack g lines a) :=
  inferInstanceAs (Decidable (_ ∧ _ ∧ _))

/-- Clean resident lines agree with the backing memory. -/
def Coherent (lines : I → Line T D) (mem : A → D) : Prop :=
  ∀ a, Resident g lines a → (lines (g.idx a)).dirty = false → (lines (g.idx a)).data = mem a

/-- The word that address `a` stands for. -/
def view [DecidableEq T] (lines : I → Line T D) (mem : A → D) (a : A) : D :=
  if Resident g lines a then (lines (g.idx a)).data else mem a

section Extensionality

variable {lines lines' : I → Line T D}

/-- Lines are determined by what they hold, by the data that is held, and by the
write-backs that they need, if lines that hold nothing are all the same. -/
theorem lines_ext (blank : Line T D) (htags : ∀ t : T, ∃ t', t' ≠ t)
    (hblank : ∀ i, (lines i).valid = false → lines i = blank)
    (hblank' : ∀ i, (lines' i).valid = false → lines' i = blank)
    (hres : ∀ a, Resident g lines a ↔ Resident g lines' a)
    (hdata : ∀ a, Resident g lines a → (lines (g.idx a)).data = (lines' (g.idx a)).data)
    (hwb : ∀ a, NeedsWriteBack g lines a ↔ NeedsWriteBack g lines' a) : lines = lines' := by
  funext i
  cases hv : (lines i).valid with
  | true =>
      have hheld := resident_addr g hv
      have hd := hdata _ hheld
      obtain ⟨hv', ht'⟩ := (hres _).mp hheld
      rw [g.idx_addr] at hv' ht' hd
      rw [g.tag_addr] at ht'
      obtain ⟨t, ht⟩ := htags (lines i).tag
      have hdirty : (lines i).dirty = true ↔ (lines' i).dirty = true := by
        have hother := hwb (g.addr t i)
        simpa [NeedsWriteBack, Resident, g.idx_addr, g.tag_addr, hv, hv', ht', ht.symm] using hother
      cases h : lines i with
      | mk v dy tg da =>
          cases h' : lines' i with
          | mk v' dy' tg' da' =>
              simp only [h, h'] at hv hv' ht' hd hdirty
              rw [hv, hv', ht', hd, Bool.eq_iff_iff.mpr hdirty]
  | false =>
      have hv' : (lines' i).valid = false := by
        rw [Bool.eq_false_iff]
        intro htrue
        have hheld := (hres _).mpr (resident_addr g htrue)
        rw [Resident, g.idx_addr, hv] at hheld
        cases hheld.1
      rw [hblank i hv, hblank' i hv']

end Extensionality

section View

variable [DecidableEq T] {lines : I → Line T D} {mem : A → D} {a : A}

theorem view_of_resident (h : Resident g lines a) :
    view g lines mem a = (lines (g.idx a)).data := if_pos h

theorem view_of_not_resident (h : ¬ Resident g lines a) : view g lines mem a = mem a := if_neg h

/-- Only a dirty resident line hides the backing word. -/
theorem view_eq_mem (hc : Coherent g lines mem)
    (h : Resident g lines a → (lines (g.idx a)).dirty = false) : view g lines mem a = mem a := by
  by_cases hr : Resident g lines a
  · exact (view_of_resident g hr).trans (hc a hr (h hr))
  · exact view_of_not_resident g hr

/-- The view at an address depends on its own line and backing word only. -/
theorem view_congr {lines' : I → Line T D} {mem' : A → D}
    (hl : lines' (g.idx a) = lines (g.idx a)) (hm : mem' a = mem a) :
    view g lines' mem' a = view g lines mem a := by
  have hiff : Resident g lines' a ↔ Resident g lines a := by simp only [Resident, hl]
  by_cases hr : Resident g lines a
  · rw [view_of_resident g hr, view_of_resident g (hiff.mpr hr), hl]
  · rw [view_of_not_resident g hr, view_of_not_resident g (mt hiff.mp hr), hm]

/-- When every line is invalid the view is the backing memory. -/
theorem view_of_invalid (h : ∀ i, (lines i).valid = false) : view g lines mem = mem := by
  ext a
  apply view_of_not_resident
  intro hr
  simp [Resident, h] at hr

omit [DecidableEq T] in
theorem coherent_of_invalid (h : ∀ i, (lines i).valid = false) : Coherent g lines mem := by
  intro a hr
  simp [Resident, h] at hr

end View

section Place

variable [DecidableEq I] {lines : I → Line T D} {mem : A → D} {a : A} {l : Line T D}

/-- Placing a line for `a` evicts exactly the other addresses of the same index. -/
theorem resident_place (hv : l.valid = true) (ht : l.tag = g.tag a) (b : A) :
    Resident g (Function.update lines (g.idx a) l) b ↔
      b = a ∨ g.idx b ≠ g.idx a ∧ Resident g lines b := by
  by_cases hi : g.idx b = g.idx a
  · simp only [Resident, hi, Function.update_self, hv, ht, true_and, ne_eq, not_true_eq_false,
      false_and, or_false]
    constructor
    · intro h
      exact (g.ext_idx_tag hi.symm h).symm
    · rintro rfl
      rfl
  · have hne : b ≠ a := fun h => hi (h ▸ rfl)
    simp [Resident, hi, hne]

theorem coherent_place (hc : Coherent g lines mem) (hv : l.valid = true) (ht : l.tag = g.tag a)
    (hd : l.dirty = false → l.data = mem a) :
    Coherent g (Function.update lines (g.idx a) l) mem := by
  intro b hb hdirty
  rcases (resident_place g hv ht b).mp hb with rfl | ⟨hi, hr⟩
  · simp only [Function.update_self] at hdirty ⊢
    exact hd hdirty
  · simp only [Function.update_of_ne hi] at hdirty ⊢
    exact hc b hr hdirty

variable [DecidableEq T] [DecidableEq A]

/-- Placing a line changes the view at its own address only, provided the line
it displaces has nothing left to write back. -/
theorem view_place (hc : Coherent g lines mem) (hn : ¬ NeedsWriteBack g lines a)
    (hv : l.valid = true) (ht : l.tag = g.tag a) :
    view g (Function.update lines (g.idx a) l) mem =
      Function.update (view g lines mem) a l.data := by
  ext b
  by_cases hba : b = a
  · subst b
    rw [view_of_resident g ((resident_place g hv ht a).mpr (Or.inl rfl))]
    simp
  rw [Function.update_of_ne hba]
  by_cases hi : g.idx b = g.idx a
  · have hgone : ¬ Resident g (Function.update lines (g.idx a) l) b := by
      intro h
      rcases (resident_place g hv ht b).mp h with h | ⟨h, _⟩
      · exact hba h
      · exact h hi
    have hclean : Resident g lines b → (lines (g.idx b)).dirty = false := by
      intro hr
      by_contra hd
      apply hn
      refine ⟨hi ▸ hr.1, by simpa [hi] using hd, fun ha => hba (g.ext_idx_tag hi ?_)⟩
      rw [← hr.2, hi, ha.2]
    rw [view_of_not_resident g hgone, view_eq_mem g hc hclean]
  · exact view_congr g (Function.update_of_ne hi _ _) rfl

/-- Filling `a` from the backing memory leaves the view as it was. -/
theorem view_fill (hc : Coherent g lines mem) (hn : ¬ NeedsWriteBack g lines a)
    (hr : ¬ Resident g lines a) (hv : l.valid = true) (ht : l.tag = g.tag a)
    (hd : l.data = mem a) :
    view g (Function.update lines (g.idx a) l) mem = view g lines mem := by
  calc
    view g (Function.update lines (g.idx a) l) mem
        = Function.update (view g lines mem) a l.data := view_place g hc hn hv ht
    _ = Function.update (view g lines mem) a (view g lines mem a) := by
          rw [hd, view_of_not_resident g hr]
    _ = view g lines mem := Function.update_eq_self a _

end Place

section WriteBack

variable {lines : I → Line T D} {mem : A → D} {i : I}

theorem addr_of_resident {b : A} (hr : Resident g lines b) :
    g.addr (lines (g.idx b)).tag (g.idx b) = b := by
  rw [hr.2, g.addr_tag_idx]

variable [DecidableEq I]

theorem resident_clean (b : A) :
    Resident g (Function.update lines i { lines i with dirty := false }) b ↔
      Resident g lines b := by
  by_cases hi : g.idx b = i
  · subst hi
    simp [Resident]
  · simp [Resident, Function.update_of_ne hi]

theorem data_clean (j : I) :
    (Function.update lines i { lines i with dirty := false } j).data = (lines j).data := by
  by_cases hj : j = i
  · subst hj
    simp
  · simp [Function.update_of_ne hj]

variable [DecidableEq A]

/-- Writing a valid line back to its own address leaves the view as it was. -/
theorem view_writeBack [DecidableEq T] (hv : (lines i).valid = true) :
    view g (Function.update lines i { lines i with dirty := false })
        (Function.update mem (g.addr (lines i).tag i) (lines i).data) = view g lines mem := by
  ext b
  by_cases hr : Resident g lines b
  · rw [view_of_resident g hr, view_of_resident g ((resident_clean g b).mpr hr), data_clean]
  · rw [view_of_not_resident g hr, view_of_not_resident g (mt (resident_clean g b).mp hr)]
    apply Function.update_of_ne
    rintro rfl
    exact hr (resident_addr g hv)

theorem coherent_writeBack (hc : Coherent g lines mem) :
    Coherent g (Function.update lines i { lines i with dirty := false })
      (Function.update mem (g.addr (lines i).tag i) (lines i).data) := by
  intro b hb hdirty
  have hr := (resident_clean g b).mp hb
  rw [data_clean]
  by_cases hi : g.idx b = i
  · subst hi
    rw [addr_of_resident g hr, Function.update_self]
  · rw [Function.update_of_ne hi] at hdirty
    rw [Function.update_of_ne, hc b hr hdirty]
    intro hb'
    exact hi (hb' ▸ g.idx_addr _ _)

end WriteBack

section StoreThrough

variable [DecidableEq A] {lines : I → Line T D} {mem : A → D} {a : A} {d : D}

/-- A store straight to the backing memory is seen when the address is not resident. -/
theorem view_storeThrough [DecidableEq T] (hr : ¬ Resident g lines a) :
    view g lines (Function.update mem a d) = Function.update (view g lines mem) a d := by
  ext b
  by_cases hba : b = a
  · subst b
    rw [view_of_not_resident g hr, Function.update_self, Function.update_self]
  · rw [Function.update_of_ne hba]
    exact view_congr g rfl (Function.update_of_ne hba _ _)

theorem coherent_storeThrough (hc : Coherent g lines mem) (hr : ¬ Resident g lines a) :
    Coherent g lines (Function.update mem a d) := by
  intro b hb hdirty
  have hba : b ≠ a := fun h => hr (h ▸ hb)
  rw [Function.update_of_ne hba, hc b hb hdirty]

end StoreThrough

end DirectMapped
