import CxlLite.Hps.WorkingSet

/-!
# The cache tests

Each test fires a few requests at addresses that are chosen to hit, to miss or to
collide, and compares the counters and the data with what it expects. What the
tests report depends on what they find in the cache when they start.
-/

namespace CxlLite.Hps

open DirectMapped Engine Shim

section Programs

/-- `expect_counters`: whether it reports a failure. -/
def expectCounters (h0 m0 wantHits wantMisses : BitVec 32) : Prog Bool := do
  let h ← hits
  let m ← misses
  return !(h - h0 == wantHits && m - m0 == wantMisses)

/-- A `do_req` between two readings of the counters: its result, and whether the
counters moved otherwise than expected. -/
def countedReq (polls : ℕ) (isWrite : Bool) (addr wdata wantHits wantMisses : BitVec 32) :
    Prog (BitVec 32 × Bool) := do
  let h ← hits
  let m ← misses
  let v ← doReq polls isWrite addr wdata
  let failed ← expectCounters h m wantHits wantMisses
  return (v, failed)

/-- `test_phase5h`, for any two addresses: the number of its failed checks. -/
def phase5h (polls : ℕ) (a b da db : BitVec 32) : Prog ℕ := do
  let w ← countedReq polls true a da 0 1
  let r ← countedReq polls false a 0 1 0
  let w' ← countedReq polls true b db 0 1
  let r' ← countedReq polls false a 0 0 1
  let vb ← doReq polls false b 0
  return [w.2, r.2, r.1 != da, w'.2, r'.2, r'.1 != da, vb != db].count true

/-- `test_bi_then_cache_allocate`, for any address and data: the number of its failed
checks. -/
def biThenCacheAllocate (polls : ℕ) (addr data : BitVec 32) : Prog ℕ := do
  biasWrite addr true
  let h0 ← hits
  let m0 ← misses
  fire ⟨false, addr, 1, 0⟩
  let _ ← pollBiStatus polls
  .write addrBiReqAck 1
  .write addrBiRspSend 1
  let _ ← waitValid polls
  .write addrRespAck 1
  let h1 ← hits
  let m1 ← misses
  issue polls ⟨true, addr, 1, data⟩
  let h2 ← hits
  let got ← fetch polls ⟨false, addr, 1, 0⟩
  let h3 ← hits
  return [!(m1 - m0 == 1 && h1 - h0 == 0), !(h2 - h1 == 1),
    !(got == data && h3 - h2 == 1)].count true

end Programs

section Counters

variable {q : ShimParams} {X : Prop} {m : Model q.engine} {polls : ℕ}

/-- An access moves exactly one of the counters. -/
theorem Model.access_counters (m : Model q.engine)
    (r : WriteBackCache.Access q.engine.Addr q.engine.Data) :
    (m.access r).hits - m.hits = (if m.Hit r.addr then 1 else 0) ∧
      (m.access r).misses - m.misses = (if m.Hit r.addr then 0 else 1) := by
  rw [Model.access]
  constructor
  · split
    · change m.hits + 1 - m.hits = 1
      ring
    · exact sub_self m.hits
  · split
    · exact sub_self m.misses
    · change m.misses + 1 - m.misses = 1
      ring

theorem expectCounters_spec (h0 m0 wantHits wantMisses : BitVec 32) :
    Mmio.Triple (bridge q) X (Rest m) (expectCounters h0 m0 wantHits wantMisses) fun v s =>
      v = !(m.hits - h0 == wantHits && m.misses - m0 == wantMisses) ∧ Rest m s := by
  apply hits_spec.bind
  intro h
  apply Mmio.Triple.of_pure
  rintro rfl
  apply misses_spec.bind
  intro m'
  apply Mmio.Triple.of_pure
  rintro rfl
  apply Mmio.Triple.ret
  intro s hs
  exact ⟨rfl, hs⟩

/-- A request that is expected to miss fails the check when it hits, and the other
way round. -/
theorem countedReq_spec (hit : Bool) {isWrite : Bool} {addr wdata : BitVec 32}
    (hbias : m.bias (addr.extractLsb' 0 q.addrW) = false) (hp : X ∨ 7 < polls) :
    Mmio.Triple (bridge q) X (Rest m)
      (countedReq polls isWrite addr wdata (if hit then 1 else 0) (if hit then 0 else 1))
      fun v s => (isWrite = false → v.1 = (m.answer (addr.extractLsb' 0 q.addrW)).setWidth 32) ∧
        v.2 = (hit != decide (m.Hit (addr.extractLsb' 0 q.addrW))) ∧
          Rest (m.access ⟨addr.extractLsb' 0 q.addrW, isWrite, wdata.extractLsb' 0 q.dataW⟩) s := by
  apply hits_spec.bind
  intro h
  apply Mmio.Triple.of_pure
  rintro rfl
  apply misses_spec.bind
  intro m'
  apply Mmio.Triple.of_pure
  rintro rfl
  apply (doReq_spec hbias hp).bind
  intro v
  apply Mmio.Triple.of_pure
  intro hv
  apply (expectCounters_spec _ _ _ _).bind
  intro failed
  apply Mmio.Triple.of_pure
  rintro rfl
  apply Mmio.Triple.ret
  intro s hs
  refine ⟨hv, ?_, hs⟩
  obtain ⟨hhits, hmisses⟩ := m.access_counters
    ⟨addr.extractLsb' 0 q.addrW, isWrite, wdata.extractLsb' 0 q.dataW⟩
  simp only [hhits, hmisses]
  by_cases hhit : m.Hit (addr.extractLsb' 0 q.addrW) <;> cases hit <;> simp [hhit]

end Counters

section Collision

variable {q : ShimParams} {X : Prop} {m : Model q.engine} {polls : ℕ} {A B : q.engine.Addr}

theorem Model.stands_access (hb : m.bypass = false)
    {r : WriteBackCache.Access q.engine.Addr q.engine.Data} (hw : r.isWrite = true) :
    (m.access r).cache.Stands (geometry q.engine) r.addr r.wdata := by
  rw [Model.access_cache hb]
  exact WriteBackCache.stands_of_write hw

theorem Model.stands_read (hb : m.bypass = false) {d : q.engine.Data}
    (h : m.cache.Stands (geometry q.engine) A d) (e : q.engine.Data) :
    (m.access ⟨A, false, e⟩).cache.Stands (geometry q.engine) A d := by
  rw [Model.access_cache hb]
  exact h.step_of_read rfl rfl

theorem Model.stands_of_ne (hb : m.bypass = false) {d : q.engine.Data}
    (h : m.cache.Stands (geometry q.engine) A d)
    {r : WriteBackCache.Access q.engine.Addr q.engine.Data} (hne : r.addr ≠ A) :
    (m.access r).cache.Stands (geometry q.engine) A d := by
  rw [Model.access_cache hb]
  exact h.step_of_ne hne

/-- The address of an access hits from then on. -/
theorem Model.hit_access (hb : m.bypass = false)
    (r : WriteBackCache.Access q.engine.Addr q.engine.Data) : (m.access r).Hit r.addr := by
  have hb' : (m.access r).bypass = false := hb
  rw [Model.hit_iff hb', Model.access_cache hb, WriteBackCache.resident_step]
  exact Or.inl rfl

/-- An access evicts the other addresses of its index. -/
theorem Model.not_hit_access (hb : m.bypass = false)
    {r : WriteBackCache.Access q.engine.Addr q.engine.Data} (hidx : idxField A = idxField r.addr)
    (hne : A ≠ r.addr) : ¬ (m.access r).Hit A := by
  have hb' : (m.access r).bypass = false := hb
  rw [Model.hit_iff hb', Model.access_cache hb, WriteBackCache.resident_step]
  rintro (h | ⟨h, _⟩)
  · exact hne h
  · exact h hidx

/-- The collision test on a shim that stands for `m`. -/
theorem phase5h_spec {a b da db : BitVec 32} (hb : m.bypass = false)
    (ha : m.bias (a.extractLsb' 0 q.addrW) = false)
    (hb' : m.bias (b.extractLsb' 0 q.addrW) = false)
    (hidx : idxField (p := q.engine) (a.extractLsb' 0 q.addrW) =
      idxField (b.extractLsb' 0 q.addrW : q.engine.Addr))
    (hne : (a.extractLsb' 0 q.addrW : q.engine.Addr) ≠ b.extractLsb' 0 q.addrW)
    (hp : X ∨ 7 < polls) :
    Mmio.Triple (bridge q) X (Rest m) (phase5h polls a b da db) fun v _ =>
      v = (if Resident (geometry q.engine) m.cache.lines (a.extractLsb' 0 q.addrW) then 1 else 0) +
        2 * (if da.toNat < 2 ^ q.dataW then 0 else 1) +
          (if db.toNat < 2 ^ q.dataW then 0 else 1) := by
  let A : q.engine.Addr := a.extractLsb' 0 q.addrW
  let B : q.engine.Addr := b.extractLsb' 0 q.addrW
  let m₁ := m.access ⟨A, true, da.extractLsb' 0 q.dataW⟩
  let m₂ := m₁.access ⟨A, false, (0 : BitVec 32).extractLsb' 0 q.dataW⟩
  let m₃ := m₂.access ⟨B, true, db.extractLsb' 0 q.dataW⟩
  let m₄ := m₃.access ⟨A, false, (0 : BitVec 32).extractLsb' 0 q.dataW⟩
  -- What the two addresses stand for after each request.
  have hA₁ : m₁.cache.Stands (geometry q.engine) A (da.extractLsb' 0 q.dataW) :=
    Model.stands_access (m := m) hb rfl
  have hA₂ : m₂.cache.Stands (geometry q.engine) A (da.extractLsb' 0 q.dataW) :=
    Model.stands_read (m := m₁) hb hA₁ _
  have hA₃ : m₃.cache.Stands (geometry q.engine) A (da.extractLsb' 0 q.dataW) :=
    Model.stands_of_ne (m := m₂) hb hA₂ hne.symm
  have hB₃ : m₃.cache.Stands (geometry q.engine) B (db.extractLsb' 0 q.dataW) :=
    Model.stands_access (m := m₂) hb rfl
  have hB₄ : m₄.cache.Stands (geometry q.engine) B (db.extractLsb' 0 q.dataW) :=
    Model.stands_of_ne (m := m₃) hb hB₃ hne
  have hhit : decide (m₁.Hit A) = true := decide_eq_true (Model.hit_access (m := m) hb _)
  have hmiss : decide (m₂.Hit B) = false :=
    decide_eq_false (Model.not_hit_access (m := m₁) hb hidx.symm hne.symm)
  have hmiss' : decide (m₃.Hit A) = false :=
    decide_eq_false (Model.not_hit_access (m := m₂) hb hidx hne)
  apply (countedReq_spec false ha hp).bind
  intro w
  apply Mmio.Triple.of_pure
  intro _
  apply Mmio.Triple.of_pure
  intro hw
  apply (countedReq_spec (m := m₁) true ha hp).bind
  intro r
  apply Mmio.Triple.of_pure
  intro hr
  apply Mmio.Triple.of_pure
  intro hr'
  apply (countedReq_spec (m := m₂) false hb' hp).bind
  intro w'
  apply Mmio.Triple.of_pure
  intro _
  apply Mmio.Triple.of_pure
  intro hw'
  apply (countedReq_spec (m := m₃) false ha hp).bind
  intro v
  apply Mmio.Triple.of_pure
  intro hv
  apply Mmio.Triple.of_pure
  intro hv'
  apply (doReq_spec (m := m₄) hb' hp).bind
  intro vb
  apply Mmio.Triple.of_pure
  intro hvb
  apply Mmio.Triple.ret
  intro s _
  rw [hw, hr', hw', hv', hr rfl, hv rfl, hvb rfl, Model.answer_of_stands (m := m₁) hb hA₁,
    Model.answer_of_stands (m := m₃) hb hA₃, Model.answer_of_stands (m := m₄) hb hB₄, low_bne,
    low_bne]
  rw [hhit, hmiss, hmiss']
  simp only [Model.hit_iff hb]
  by_cases hres : Resident (geometry q.engine) m.cache.lines (a.extractLsb' 0 q.addrW) <;>
    by_cases hda : da.toNat < 2 ^ q.dataW <;> by_cases hdb : db.toNat < 2 ^ q.dataW <;>
      simp [hres, hda, hdb]

end Collision

section BackInvalidate

variable {q : ShimParams} {X : Prop} {m : Model q.engine} {polls : ℕ}

/-- What the handshake test reports on a shim that stands for `m`. -/
theorem biThenCacheAllocate_spec {addr data : BitVec 32} (hp : X ∨ 7 < polls) :
    Mmio.Triple (bridge q) X (Rest m) (biThenCacheAllocate polls addr data) fun v _ =>
      v = if m.bypass then 2 else
        (if Resident (geometry q.engine) m.cache.lines (addr.extractLsb' 0 q.addrW) then 1 else 0) +
          (if data.toNat < 2 ^ q.dataW then 0 else 1) := by
  let r : Request := ⟨false, addr, 1, 0⟩
  let m₀ := m.setBias (r.addrBits q) false
  let m₁ := m₀.access (r.access q)
  let m₂ := m₁.access (Request.access q ⟨true, addr, 1, data⟩)
  let m₃ := m₂.access (Request.access q ⟨false, addr, 1, 0⟩)
  have hhost : (m.setBias (r.addrBits q) true).bias (r.addrBits q) = true :=
    Function.update_self ..
  have hdevice : m₀.bias (r.addrBits q) = false := Function.update_self ..
  apply (biasWrite_spec addr true).bind
  intro _
  apply hits_spec.bind
  intro h0
  apply Mmio.Triple.of_pure
  rintro rfl
  apply misses_spec.bind
  intro m0
  apply Mmio.Triple.of_pure
  rintro rfl
  apply (fire_fired (r := r)).bind
  intro _
  apply (pollBiStatus_spec hhost (hp.imp_right (Nat.lt_of_le_of_lt (by omega)))).bind
  intro _
  apply biReqAck_spec.bind
  intro _
  apply biRspSend_inService.bind
  intro _
  apply (waitValid_inService hp).bind
  intro _
  apply Mmio.Triple.of_pure
  intro _
  apply ack_spec.bind
  intro _
  apply (hits_spec (m := m₁)).bind
  intro h1
  apply Mmio.Triple.of_pure
  rintro rfl
  apply (misses_spec (m := m₁)).bind
  intro m1
  apply Mmio.Triple.of_pure
  rintro rfl
  apply (issue_spec (m := m₁) (r := ⟨true, addr, 1, data⟩) hdevice hp).bind
  intro _
  apply (hits_spec (m := m₂)).bind
  intro h2
  apply Mmio.Triple.of_pure
  rintro rfl
  apply (fetch_spec (m := m₂) (r := ⟨false, addr, 1, 0⟩) rfl hdevice hp).bind
  intro got
  apply Mmio.Triple.of_pure
  rintro rfl
  apply (hits_spec (m := m₃)).bind
  intro h3
  apply Mmio.Triple.of_pure
  rintro rfl
  apply Mmio.Triple.ret
  intro s _
  have hhits₁ : m₁.hits - m₀.hits = if m₀.Hit (r.addrBits q) then 1 else 0 :=
    (m₀.access_counters _).1
  have hmisses₁ : m₁.misses - m₀.misses = if m₀.Hit (r.addrBits q) then 0 else 1 :=
    (m₀.access_counters _).2
  have hhits₂ : m₂.hits - m₁.hits = if m₁.Hit (r.addrBits q) then 1 else 0 :=
    (m₁.access_counters _).1
  have hhits₃ : m₃.hits - m₂.hits = if m₂.Hit (r.addrBits q) then 1 else 0 :=
    (m₂.access_counters _).1
  change List.count true [!(m₁.misses - m₀.misses == 1 && m₁.hits - m₀.hits == 0),
    !(m₂.hits - m₁.hits == 1), !((m₂.answer (r.addrBits q)).setWidth 32 == data &&
      m₃.hits - m₂.hits == 1)] = _
  rw [hmisses₁, hhits₁, hhits₂, hhits₃]
  cases hb : m.bypass with
  | true =>
      have h₀ := Model.not_hit_of_bypass (m := m₀) hb (r.addrBits q)
      have h₁ := Model.not_hit_of_bypass (m := m₁) hb (r.addrBits q)
      have h₂ := Model.not_hit_of_bypass (m := m₂) hb (r.addrBits q)
      rw [if_neg h₀, if_neg h₀, if_neg h₁, if_neg h₂]
      simp
  | false =>
      have h₁ : m₁.Hit (r.addrBits q) := Model.hit_access (m := m₀) hb (r.access q)
      have h₂ : m₂.Hit (r.addrBits q) :=
        Model.hit_access (m := m₁) hb (Request.access q ⟨true, addr, 1, data⟩)
      have hstands : m₂.cache.Stands (geometry q.engine) (r.addrBits q)
          (data.extractLsb' 0 q.dataW) := Model.stands_access (m := m₁) hb rfl
      have hres : m₀.Hit (r.addrBits q) ↔
          Resident (geometry q.engine) m.cache.lines (addr.extractLsb' 0 q.addrW) :=
        Model.hit_iff (m := m₀) hb _
      have hback := setWidth_low_iff (w := q.dataW) data
      rw [if_pos h₁, if_pos h₂, Model.answer_of_stands (m := m₂) hb hstands]
      simp only [hres]
      by_cases hr : Resident (geometry q.engine) m.cache.lines (addr.extractLsb' 0 q.addrW) <;>
        by_cases hd : data.toNat < 2 ^ q.dataW <;> simp [hr, hd, hback]

end BackInvalidate

section Results

variable {q : ShimParams} {x : Shim.Undefined q} {bus : ℕ → Bus} {t : ℕ}

/-- The collision test is exact. Take a shim with nothing pending or outstanding and
the cache on, and two different Device-Biased addresses that share a line. However the
processor is paced, the test fails once if the first address is already resident,
twice if the data of the first does not fit and once if that of the second does not,
and never otherwise: the eviction and the write-back in between lose nothing. -/
theorem collision_test {a b da db : BitVec 32} (hq : (Shim.run x bus t).Quiescent)
    (hb : (Shim.run x bus t).cacheBypassEn = false)
    (ha : (Shim.run x bus t).engine.bias (a.extractLsb' 0 q.addrW) = false)
    (hb' : (Shim.run x bus t).engine.bias (b.extractLsb' 0 q.addrW) = false)
    (hidx : idxField (p := q.engine) (a.extractLsb' 0 q.addrW) =
      idxField (b.extractLsb' 0 q.addrW : q.engine.Addr))
    (hne : (a.extractLsb' 0 q.addrW : q.engine.Addr) ≠ b.extractLsb' 0 q.addrW)
    (polls : ℕ) (gaps : ℕ → ℕ) :
    ∃ n c, Mmio.run (bridge q) gaps (phase5h polls a b da db) (Shim.run x bus t) n = c ∧
      ((∃ v, c.prog = .ret v ∧
        v = (if Resident (geometry q.engine) (Shim.run x bus t).engine.cache
            (a.extractLsb' 0 q.addrW) then 1 else 0) +
          2 * (if da.toNat < 2 ^ q.dataW then 0 else 1) +
            (if db.toNat < 2 ^ q.dataW then 0 else 1)) ∨
      c.prog = .exit ∧ polls ≤ 7) :=
  outcome hq (phase5h_spec hb ha hb' hidx hne (le_or_gt polls 7)) gaps

/-- The test of a handshake that is followed by an allocation is exact. On any shim
with nothing pending or outstanding, whatever the bias of the address and however
the processor is paced, it fails twice with the cache bypassed. With the cache on it
fails once if the address was already resident and once if the data does not fit: a
handshake itself neither evicts nor allocates, and the stalled read allocates as any
other. -/
theorem bi_then_cache_allocate (hq : (Shim.run x bus t).Quiescent) (addr data : BitVec 32)
    (polls : ℕ) (gaps : ℕ → ℕ) :
    ∃ n c, Mmio.run (bridge q) gaps (biThenCacheAllocate polls addr data)
        (Shim.run x bus t) n = c ∧
      ((∃ v, c.prog = .ret v ∧
        v = if (Shim.run x bus t).cacheBypassEn then 2 else
          (if Resident (geometry q.engine) (Shim.run x bus t).engine.cache
            (addr.extractLsb' 0 q.addrW) then 1 else 0) +
              (if data.toNat < 2 ^ q.dataW then 0 else 1)) ∨
      c.prog = .exit ∧ polls ≤ 7) :=
  outcome hq (biThenCacheAllocate_spec (le_or_gt polls 7)) gaps

end Results

section Demonstration

/-- After power-on the two addresses of the original test pass it. -/
theorem collision_test_powerOn :
    ∃ n, (Mmio.run (bridge defaultShim) (fun n => n) (phase5h 8 0x05 0x15 0xAAAA0001 0xBBBB0002)
      (Shim.run powerOnZero (fun _ => Bus.idle) 0) n).prog = .ret 0 := by
  obtain ⟨n, c, hrun, ⟨v, hprog, hv⟩ | ⟨_, hpolls⟩⟩ :=
    @collision_test defaultShim powerOnZero (fun _ => Bus.idle) 0 0x05 0x15 0xAAAA0001 0xBBBB0002
      ⟨rfl, rfl, rfl, fun _ => rfl⟩ rfl rfl rfl rfl (by decide) 8 fun n => n
  · have hzero : v = 0 := hv
    exact ⟨n, by rw [hrun, hprog, hzero]⟩
  · omega

/-- So does a fresh address in the handshake test. -/
theorem bi_then_cache_allocate_powerOn :
    ∃ n, (Mmio.run (bridge defaultShim) (fun n => n) (biThenCacheAllocate 8 0xE0 0xABCD1234)
      (Shim.run powerOnZero (fun _ => Bus.idle) 0) n).prog = .ret 0 := by
  obtain ⟨n, c, hrun, ⟨v, hprog, hv⟩ | ⟨_, hpolls⟩⟩ :=
    @bi_then_cache_allocate defaultShim powerOnZero (fun _ => Bus.idle) 0
      ⟨rfl, rfl, rfl, fun _ => rfl⟩ 0xE0 0xABCD1234 8 fun n => n
  · have hzero : v = 0 := hv
    exact ⟨n, by rw [hrun, hprog, hzero]⟩
  · omega

end Demonstration

end CxlLite.Hps
