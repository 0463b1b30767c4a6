import CxlLite.Hps.Transparency

/-!
# The round-trip tests

The bring-up test writes a word and reads it back, and the extended test does so for
tables of writes and reads. Both count the completions that are not as expected, and
the count is exact.
-/

namespace CxlLite.Hps

open DirectMapped Engine Shim

section Programs

/-- `main` of `host_driver_linux`, for any address, word and tags: `errors`. -/
def roundTrip (polls : ℕ) (addr wdata wtag rtag : BitVec 32) : Prog ℕ := do
  let w ← checkedWrite polls ⟨true, addr, wtag, wdata⟩
  let r ← checkedRead polls ⟨false, addr, rtag, 0⟩
  return [statusIsData w.1, w.2 != wtag, !statusIsData r.1, r.2.1 != rtag, r.2.2 != wdata].count true

/-- A row of the tables `writes` and `reads`. -/
structure Check where
  addr : BitVec 32
  tag : BitVec 32
  data : BitVec 32

def Check.write (c : Check) : Request := ⟨true, c.addr, c.tag, c.data⟩

def Check.read (c : Check) : Request := ⟨false, c.addr, c.tag, 0⟩

/-- The write loop's test of a row: whether it counts an error. -/
def writeCheck (polls : ℕ) (c : Check) : Prog Bool := do
  let v ← checkedWrite polls c.write
  return v.2 != c.tag

/-- The read loop's test of a row, the negation of `ok`. -/
def readCheck (polls : ℕ) (c : Check) : Prog Bool := do
  let v ← checkedRead polls c.read
  return !(v.2.1 == c.tag && v.2.2 == c.data && statusIsData v.1)

/-- `main` of `host_driver_linux_extended_test`, for any tables: `errors`. -/
def extendedTest (polls : ℕ) (writes reads : List Check) : Prog ℕ := do
  let bad ← .sequence (writes.map (writeCheck polls))
  let bad' ← .sequence (reads.map (readCheck polls))
  return bad.count true + bad'.count true

end Programs

section Tables

variable (q : ShimParams)

/-- The address of a row as the engine sees it. -/
def Check.key (c : Check) : q.engine.Addr := c.addr.extractLsb' 0 q.addrW

/-- The flat memory after the write loop. -/
def Check.written (f : Flat q.engine) (writes : List Check) : Flat q.engine :=
  writes.foldl (fun f c => f.access (c.write.access q)) f

/-- The row of the read table is as expected. -/
def Check.Passes (f : Flat q.engine) (c : Check) : Prop :=
  c.tag.toNat < 2 ^ q.tagW ∧ (f.mem (c.key q)).setWidth 32 = c.data

instance (f : Flat q.engine) (c : Check) : Decidable (c.Passes q f) :=
  inferInstanceAs (Decidable (_ ∧ _))

end Tables

section Rows

variable {q : ShimParams} {X : Prop} {m : Model q.engine} {f : Flat q.engine} {polls : ℕ}
  {c : Check}

/-- A shim at rest that stands for a flat memory. -/
def Stands (f : Flat q.engine) (s : Shim.State q) : Prop := ∃ m, Rest m s ∧ m.Flattens f

theorem writeCheck_spec (hbias : f.bias (c.key q) = false) (hp : X ∨ 7 < polls) :
    Mmio.Triple (bridge q) X (Stands f) (writeCheck polls c) fun v s =>
      v = !decide (c.tag.toNat < 2 ^ q.tagW) ∧ Stands (f.access (c.write.access q)) s := by
  rintro s ⟨m, hs, hf⟩
  have hspec : Mmio.Triple (bridge q) X (Rest m) (writeCheck polls c) fun v s =>
      v = !decide (c.tag.toNat < 2 ^ q.tagW) ∧ Stands (f.access (c.write.access q)) s := by
    apply (checkedWrite_spec (r := c.write) (by rw [hf.bias]; exact hbias) hp).bind
    intro v
    apply Mmio.Triple.of_pure
    rintro rfl
    apply Mmio.Triple.ret
    intro s hs
    refine ⟨?_, _, hs, hf.access _⟩
    exact low_bne c.tag
  exact hspec s hs

theorem readCheck_spec (hbias : f.bias (c.key q) = false) (hp : X ∨ 7 < polls) :
    Mmio.Triple (bridge q) X (Stands f) (readCheck polls c) fun v s =>
      v = !decide (c.Passes q f) ∧ Stands f s := by
  rintro s ⟨m, hs, hf⟩
  have hspec : Mmio.Triple (bridge q) X (Rest m) (readCheck polls c) fun v s =>
      v = !decide (c.Passes q f) ∧ Stands f s := by
    apply (checkedRead_spec (r := c.read) rfl (by rw [hf.bias]; exact hbias) hp).bind
    intro v
    apply Mmio.Triple.of_pure
    rintro rfl
    apply Mmio.Triple.ret
    intro s hs
    refine ⟨?_, _, hs, hf.access _⟩
    have hfit := setWidth_low_iff (w := q.tagW) c.tag
    have hanswer : m.answer (c.key q) = f.mem (c.key q) := (hf.serves (c.key q)).answer
    change (!((c.tag.extractLsb' 0 q.tagW).setWidth 32 == c.tag &&
      (m.answer (c.key q)).setWidth 32 == c.data && statusIsData 3)) = _
    rw [hanswer, show statusIsData 3 = true from rfl, Bool.and_true]
    by_cases ht : c.tag.toNat < 2 ^ q.tagW <;>
      by_cases hd : (f.mem (c.key q)).setWidth 32 = c.data <;>
        simp [Check.Passes, ht, hd, hfit]
  exact hspec s hs

end Rows

section Loops

variable {q : ShimParams} {X : Prop} {m : Model q.engine} {f : Flat q.engine} {polls : ℕ}
  {writes reads : List Check}

theorem Check.written_bias (f : Flat q.engine) (writes : List Check) :
    (Check.written q f writes).bias = f.bias := by
  induction writes generalizing f with
  | nil => rfl
  | cons c writes ih => exact ih (f.access (c.write.access q))

theorem writeChecks_spec (hbias : ∀ c ∈ writes, f.bias (c.key q) = false) (hp : X ∨ 7 < polls) :
    Mmio.Triple (bridge q) X (Stands f) (.sequence (writes.map (writeCheck polls))) fun bad s =>
      bad = writes.map (fun c => !decide (c.tag.toNat < 2 ^ q.tagW)) ∧
        Stands (Check.written q f writes) s := by
  refine (Mmio.Triple.sequence (I := fun l bad s => ∃ pre, pre ++ l = writes ∧
    bad = pre.map (fun c => !decide (c.tag.toNat < 2 ^ q.tagW)) ∧
      Stands (Check.written q f pre) s) ?_ writes []).conseq ?_ ?_
  · rintro c l bad s ⟨pre, rfl, rfl, hs⟩
    have hc : (Check.written q f pre).bias (c.key q) = false := by
      rw [Check.written_bias]
      exact hbias c (by simp)
    apply Mmio.wp_mono _ (writeCheck_spec hc hp s hs)
    rintro b s' ⟨rfl, hs'⟩
    refine ⟨pre ++ [c], by simp, by simp, ?_⟩
    rw [Check.written, List.foldl_append]
    exact hs'
  · intro s hs
    exact ⟨[], rfl, rfl, hs⟩
  · rintro bad s ⟨pre, hpre, hbad, hs⟩
    rw [List.append_nil] at hpre
    subst hpre
    exact ⟨hbad, hs⟩

theorem readChecks_spec (hbias : ∀ c ∈ reads, f.bias (c.key q) = false) (hp : X ∨ 7 < polls) :
    Mmio.Triple (bridge q) X (Stands f) (.sequence (reads.map (readCheck polls))) fun bad s =>
      bad = reads.map (fun c => !decide (c.Passes q f)) ∧ Stands f s := by
  refine (Mmio.Triple.sequence (I := fun l bad s => ∃ pre, pre ++ l = reads ∧
    bad = pre.map (fun c => !decide (c.Passes q f)) ∧ Stands f s) ?_ reads []).conseq ?_ ?_
  · rintro c l bad s ⟨pre, rfl, rfl, hs⟩
    apply Mmio.wp_mono _ (readCheck_spec (hbias c (by simp)) hp s hs)
    rintro b s' ⟨rfl, hs'⟩
    exact ⟨pre ++ [c], by simp, by simp, hs'⟩
  · intro s hs
    exact ⟨[], rfl, rfl, hs⟩
  · rintro bad s ⟨pre, hpre, hbad, hs⟩
    rw [List.append_nil] at hpre
    subst hpre
    exact ⟨hbad, hs⟩

theorem extendedTest_spec (hf : m.Flattens f)
    (hbias : ∀ c ∈ writes ++ reads, f.bias (c.key q) = false) (hp : X ∨ 7 < polls) :
    Mmio.Triple (bridge q) X (Rest m) (extendedTest polls writes reads) fun v s =>
      v = writes.countP (fun c => ¬ c.tag.toNat < 2 ^ q.tagW) +
        reads.countP (fun c => ¬ c.Passes q (Check.written q f writes)) ∧
      Stands (Check.written q f writes) s := by
  have hwrites : ∀ c ∈ writes, f.bias (c.key q) = false := fun c hc =>
    hbias c (List.mem_append_left reads hc)
  apply ((writeChecks_spec hwrites hp).conseq (fun s hs => ⟨m, hs, hf⟩) fun _ _ h => h).bind
  intro bad
  apply Mmio.Triple.of_pure
  rintro rfl
  have hreads : ∀ c ∈ reads, (Check.written q f writes).bias (c.key q) = false := by
    intro c hc
    rw [Check.written_bias]
    exact hbias c (List.mem_append_right writes hc)
  apply (readChecks_spec hreads hp).bind
  intro bad'
  apply Mmio.Triple.of_pure
  rintro rfl
  apply Mmio.Triple.ret
  intro s hs
  refine ⟨?_, hs⟩
  simp only [List.count, List.countP_map, Function.comp_def, beq_true, decide_not]

/-- A write and a read that follows it, on any shim at rest. -/
theorem roundTrip_spec {addr wdata : BitVec 32} (wtag rtag : BitVec 32)
    (hbias : m.bias (addr.extractLsb' 0 q.addrW) = false) (hp : X ∨ 7 < polls) :
    Mmio.Triple (bridge q) X (Rest m) (roundTrip polls addr wdata wtag rtag) fun v s =>
      v = (if wtag.toNat < 2 ^ q.tagW then 0 else 1) + (if rtag.toNat < 2 ^ q.tagW then 0 else 1) +
        (if wdata.toNat < 2 ^ q.dataW then 0 else 1) ∧ s.Quiescent := by
  let A : q.engine.Addr := addr.extractLsb' 0 q.addrW
  let w : Request := ⟨true, addr, wtag, wdata⟩
  let m₁ := m.access (w.access q)
  apply (checkedWrite_spec (r := w) hbias hp).bind
  intro v
  apply Mmio.Triple.of_pure
  rintro rfl
  apply (checkedRead_spec (m := m₁) (r := ⟨false, addr, rtag, 0⟩) rfl hbias hp).bind
  intro v
  apply Mmio.Triple.of_pure
  rintro rfl
  apply Mmio.Triple.ret
  intro s hs
  refine ⟨?_, hs.quiescent⟩
  have hanswer : m₁.answer A = wdata.extractLsb' 0 q.dataW :=
    (Model.serves_of_write (m := m) (r := w.access q) rfl).answer
  change [statusIsData 1, (wtag.extractLsb' 0 q.tagW).setWidth 32 != wtag, !statusIsData 3,
    (rtag.extractLsb' 0 q.tagW).setWidth 32 != rtag,
      (m₁.answer A).setWidth 32 != wdata].count true = _
  rw [hanswer, low_bne, low_bne, low_bne, show statusIsData 1 = false from rfl,
    show statusIsData 3 = true from rfl]
  by_cases h₁ : wtag.toNat < 2 ^ q.tagW <;> by_cases h₂ : rtag.toNat < 2 ^ q.tagW <;>
    by_cases h₃ : wdata.toNat < 2 ^ q.dataW <;> simp [h₁, h₂, h₃]

end Loops

section Results

variable {q : ShimParams} {x : Shim.Undefined q} {bus : ℕ → Bus} {t : ℕ}

/-- The bring-up test is exact, whatever it finds. On any shim with nothing pending or
outstanding and the address Device-Biased, even one whose cache is stale or bypassed, it
counts one error for each tag and for the data if these do not fit into the fields of the
shim, and no other error. -/
theorem round_trip {addr : BitVec 32} (hq : (Shim.run x bus t).Quiescent)
    (hbias : (Shim.run x bus t).engine.bias (addr.extractLsb' 0 q.addrW) = false)
    (wdata wtag rtag : BitVec 32) (polls : ℕ) (gaps : ℕ → ℕ) :
    ∃ n c, Mmio.run (bridge q) gaps (roundTrip polls addr wdata wtag rtag)
        (Shim.run x bus t) n = c ∧
      ((∃ v, c.prog = .ret v ∧
        v = (if wtag.toNat < 2 ^ q.tagW then 0 else 1) +
          (if rtag.toNat < 2 ^ q.tagW then 0 else 1) +
            (if wdata.toNat < 2 ^ q.dataW then 0 else 1) ∧ c.device.Quiescent) ∨
      c.prog = .exit ∧ polls ≤ 7) :=
  outcome hq (roundTrip_spec wtag rtag hbias (le_or_gt polls 7)) gaps

/-- The extended test is exact. On a shim that stands for a flat memory, with all the
addresses Device-Biased, it counts the writes whose tag does not fit and the reads whose
tag does not fit or whose expected word is not what the flat memory holds after all the
writes: addresses may repeat, alias or share lines. -/
theorem extended_test (hq : (Shim.run x bus t).Quiescent) {f : Flat q.engine}
    (hf : (Model.ofShim (Shim.run x bus t)).Flattens f) {writes reads : List Check}
    (hbias : ∀ c ∈ writes ++ reads, f.bias (c.key q) = false) (polls : ℕ) (gaps : ℕ → ℕ) :
    ∃ n c, Mmio.run (bridge q) gaps (extendedTest polls writes reads)
        (Shim.run x bus t) n = c ∧
      ((∃ v, c.prog = .ret v ∧
        v = writes.countP (fun c => ¬ c.tag.toNat < 2 ^ q.tagW) +
          reads.countP (fun c => ¬ c.Passes q (Check.written q f writes)) ∧
        Stands (Check.written q f writes) c.device) ∨
      c.prog = .exit ∧ polls ≤ 7) :=
  outcome hq (extendedTest_spec hf hbias (le_or_gt polls 7)) gaps

end Results

section Demonstration

theorem round_trip_powerOn :
    ∃ n, (Mmio.run (bridge defaultShim) (fun n => n) (roundTrip 8 0x05 0xABCD1234 3 7)
      (Shim.run powerOnZero (fun _ => Bus.idle) 0) n).prog = .ret 0 := by
  obtain ⟨n, c, hrun, ⟨v, hprog, hv, _⟩ | ⟨_, hpolls⟩⟩ :=
    @round_trip defaultShim powerOnZero (fun _ => Bus.idle) 0 0x05 ⟨rfl, rfl, rfl, fun _ => rfl⟩
      rfl 0xABCD1234 3 7 8 fun n => n
  · have hzero : v = 0 := hv
    exact ⟨n, by rw [hrun, hprog, hzero]⟩
  · omega

/-- The tables of the original test. -/
def originalWrites : List Check := [⟨0x11, 1, 0xDEADBEEF⟩, ⟨0x22, 2, 0⟩, ⟨0x7F, 9, 0x11223344⟩]

def originalReads : List Check :=
  [⟨0x11, 11, 0xDEADBEEF⟩, ⟨0x22, 12, 0⟩, ⟨0x7F, 13, 0x11223344⟩, ⟨0x33, 14, 0⟩]

theorem extended_test_original :
    ∃ n, (Mmio.run (bridge defaultShim) (fun n => n) (extendedTest 8 originalWrites originalReads)
      (Shim.run powerOnZero (fun _ => Bus.idle) 0) n).prog = .ret 0 := by
  let f : Flat defaultShim.engine := ⟨fun _ => 0, fun _ => false⟩
  have hf : (Model.ofShim (Shim.run powerOnZero (fun _ => Bus.idle) 0)).Flattens f :=
    ⟨rfl, fun _ => StandsAt.of_invalid fun _ => rfl⟩
  obtain ⟨n, c, hrun, ⟨v, hprog, hv, _⟩ | ⟨_, hpolls⟩⟩ :=
    @extended_test defaultShim powerOnZero (fun _ => Bus.idle) 0 ⟨rfl, rfl, rfl, fun _ => rfl⟩ f hf
      originalWrites originalReads (fun _ _ => rfl) 8 fun n => n
  · have hzero : v = 0 := by rw [hv]; rfl
    exact ⟨n, by rw [hrun, hprog, hzero]⟩
  · omega

end Demonstration

end CxlLite.Hps
