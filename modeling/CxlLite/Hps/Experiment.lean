import CxlLite.Hps.CacheTests
import CxlLite.Mmio.Timing
import Mathlib.Tactic.IntervalCases

/-!
# The latency experiment

The program reads one resident address over and over, first with the cache on and
then bypassed, and compares the counters and the times. How much of the cycles that
the cache saves can be seen depends on how far apart the register accesses are.
-/

namespace CxlLite.Hps

open DirectMapped Engine Shim

section Program

/-- What the experiment measures, the clock readings apart, and the words that its
two loops read. -/
structure Measured where
  hits : BitVec 32
  misses : BitVec 32
  bypassMisses : BitVec 32
  cached : List (BitVec 32)
  bypassed : List (BitVec 32)
  deriving DecidableEq

/-- A measuring loop of `n` repetitions. -/
def samples (polls n : ℕ) (addr tag : BitVec 32) : Prog (List (BitVec 32)) :=
  .sequence ((List.range n).map fun _ => timedAccess polls addr tag)

/-- `main` of `host_driver_linux_phase8`, for any address, word and number of repetitions. -/
def experiment (polls n : ℕ) (addr data : BitVec 32) : Prog Measured := do
  .write addrCacheBypass 0
  fire ⟨true, addr, 1, data⟩
  let _ ← pollStatus polls
  .write addrRespAck 1
  let h0 ← hits
  let m0 ← misses
  let cached ← samples polls n addr 2
  let h1 ← hits
  let m1 ← misses
  .write addrCacheBypass 1
  let m2 ← misses
  let bypassed ← samples polls n addr 3
  let m3 ← misses
  .write addrCacheBypass 0
  return ⟨h1 - h0, m1 - m0, m3 - m2, cached, bypassed⟩

end Program

section Steady

variable {p : Params} {m : Model p} {a : p.Addr}

namespace Model

/-- Reading `a` changes no line: it hits, or the cache is bypassed. -/
def Steady (m : Model p) (a : p.Addr) : Prop := m.Hit a ∨ m.bypass = true

/-- The model after `n` reads of an address with steady lines. -/
def tally (m : Model p) (a : p.Addr) (n : ℕ) : Model p :=
  { m with
    hits := m.hits + if m.Hit a then BitVec.ofNat 32 n else 0
    misses := m.misses + if m.Hit a then 0 else BitVec.ofNat 32 n }

theorem Steady.cacheAfter_read (h : m.Steady a) (d : p.Data) :
    m.cacheAfter ⟨a, false, d⟩ = m.cache := by
  rw [cacheAfter]
  rcases h with hhit | hb
  · rw [if_neg (by simp [hhit.1])]
    exact WriteBackCache.step_of_read_resident (geometry p) rfl hhit.2
  · rw [if_pos hb]
    rfl

theorem Steady.not_evicts (h : m.Steady a) : ¬ m.Evicts a := by
  rintro ⟨hb, hn⟩
  rcases h with hhit | hb'
  · exact hn.2.2 hhit.2
  · rw [hb] at hb'
    cases hb'

theorem tally_zero : m.tally a 0 = m := by
  simp [tally]

/-- One more read. -/
theorem Steady.access_tally (h : m.Steady a) (n : ℕ) (d : p.Data) :
    (m.tally a n).access ⟨a, false, d⟩ = m.tally a (n + 1) := by
  have hcache := Steady.cacheAfter_read (m := m.tally a n) h d
  rw [access, hcache]
  have hhit : (m.tally a n).Hit a ↔ m.Hit a := Iff.rfl
  by_cases hr : m.Hit a
  · rw [if_pos (hhit.mpr hr), if_pos (hhit.mpr hr)]
    simp [tally, hr, BitVec.ofNat_add, BitVec.add_assoc]
  · rw [if_neg (mt hhit.mp hr), if_neg (mt hhit.mp hr)]
    simp [tally, hr, BitVec.ofNat_add, BitVec.add_assoc]

end Model

/-- A read from steady lines takes two cycles when it hits and five when it does not. -/
theorem Model.Steady.serviceTime {q : ShimParams} {m : Model q.engine} {r : Request}
    (h : m.Steady (r.addrBits q)) (hr : r.isWrite = false) :
    m.serviceTime r = if m.Hit (r.addrBits q) then 2 else 5 := by
  rw [Model.serviceTime, if_neg h.not_evicts, Model.latency, hr]
  simp only [Bool.false_eq_true, false_or]
  split <;> rfl

end Steady

section Loops

variable {q : ShimParams} {X : Prop} {m : Model q.engine} {polls g : ℕ} {addr tag : BitVec 32}

theorem timedAccess_spec (hbias : m.bias (addr.extractLsb' 0 q.addrW) = false)
    (hp : X ∨ 7 < polls) :
    Mmio.Triple (bridge q) X (Rest m) (timedAccess polls addr tag) fun v s =>
      v = (m.answer (addr.extractLsb' 0 q.addrW)).setWidth 32 ∧
        Rest (m.access (Request.access q ⟨false, addr, tag, 0⟩)) s := by
  apply (request_spec (r := ⟨false, addr, tag, 0⟩) hbias hp).conseq fun _ h => h
  rintro v s ⟨hv, hs⟩
  exact ⟨hv rfl, hs⟩

/-- A loop of `N` reads after `n` of them. -/
def Sampled (m : Model q.engine) (addr : BitVec 32) (N : ℕ) (l : List ℕ) (vs : List (BitVec 32))
    (s : Shim.State q) : Prop :=
  ∃ n, n + l.length = N ∧
    vs = List.replicate n ((m.answer (addr.extractLsb' 0 q.addrW)).setWidth 32) ∧
      Rest (m.tally (addr.extractLsb' 0 q.addrW) n) s

theorem Sampled.snoc {N n i : ℕ} {l : List ℕ} {vs : List (BitVec 32)} {v : BitVec 32}
    {s : Shim.State q} (hsteady : m.Steady (addr.extractLsb' 0 q.addrW))
    (hn : n + (i :: l).length = N)
    (hvs : vs = List.replicate n ((m.answer (addr.extractLsb' 0 q.addrW)).setWidth 32))
    (hv : v = ((m.tally (addr.extractLsb' 0 q.addrW) n).answer
      (addr.extractLsb' 0 q.addrW)).setWidth 32)
    (hs : Rest ((m.tally (addr.extractLsb' 0 q.addrW) n).access
      (Request.access q ⟨false, addr, tag, 0⟩)) s) :
    Sampled m addr N l (vs ++ [v]) s := by
  refine ⟨n + 1, ?_, ?_, ?_⟩
  · rw [List.length_cons] at hn
    omega
  · rw [hvs, List.replicate_succ', hv]
    rfl
  · rw [← hsteady.access_tally]
    exact hs

theorem samples_spec (hsteady : m.Steady (addr.extractLsb' 0 q.addrW))
    (hbias : m.bias (addr.extractLsb' 0 q.addrW) = false) (hp : X ∨ 7 < polls) (N : ℕ) :
    Mmio.Triple (bridge q) X (Rest m) (samples polls N addr tag) fun vs s =>
      vs = List.replicate N ((m.answer (addr.extractLsb' 0 q.addrW)).setWidth 32) ∧
        Rest (m.tally (addr.extractLsb' 0 q.addrW) N) s := by
  refine (Mmio.Triple.sequence (I := Sampled m addr N) ?_ (List.range N) []).conseq ?_ ?_
  · rintro i l vs s ⟨n, hn, hvs, hs⟩
    have hbias' : (m.tally (addr.extractLsb' 0 q.addrW) n).bias
        (addr.extractLsb' 0 q.addrW) = false := hbias
    apply Mmio.wp_mono _ (timedAccess_spec hbias' hp s hs)
    rintro v s' ⟨hv, hs'⟩
    exact Sampled.snoc hsteady hn hvs hv hs'
  · intro s hs
    refine ⟨0, by simp, rfl, ?_⟩
    rwa [Model.tally_zero]
  · rintro vs s ⟨n, hn, hvs, hs⟩
    obtain rfl : n = N := hn
    exact ⟨hvs, hs⟩

/-- What the experiment measures on a shim that stands for `m`. -/
theorem experiment_spec {data : BitVec 32} (hbias : m.bias (addr.extractLsb' 0 q.addrW) = false)
    (hp : X ∨ 7 < polls) (N : ℕ) :
    Mmio.Triple (bridge q) X (Rest m) (experiment polls N addr data) fun v s =>
      v = ⟨BitVec.ofNat 32 N, 0, BitVec.ofNat 32 N,
        List.replicate N ((data.extractLsb' 0 q.dataW).setWidth 32),
        List.replicate N ((m.cache.mem (addr.extractLsb' 0 q.addrW)).setWidth 32)⟩ ∧
      s.Quiescent ∧ s.cacheBypassEn = false := by
  let A : q.engine.Addr := addr.extractLsb' 0 q.addrW
  let w : Request := ⟨true, addr, 1, data⟩
  let m₁ := (m.setBypass false).access (w.access q)
  let m₂ := (m₁.tally A N).setBypass true
  have hhit : m₁.Hit A := Model.hit_access (m := m.setBypass false) rfl (w.access q)
  have hmiss : ¬ m₂.Hit A := Model.not_hit_of_bypass (m := m₂) rfl A
  have hanswer : m₁.answer A = data.extractLsb' 0 q.dataW := by
    apply Model.answer_of_stands (m := m₁) rfl
    exact Model.stands_access (m := m.setBypass false) rfl (r := w.access q) rfl
  have hanswer' : m₂.answer A = m.cache.mem A := by
    rw [Model.answer, if_neg hmiss]
    exact WriteBackCache.step_mem_self (geometry q.engine)
  apply (bypass_spec 0).bind
  intro _
  apply (fire_spec (m := m.setBypass false) (r := w) hbias).bind
  intro _
  apply (pollStatus_spec (enough_polls hp)).bind
  intro _
  apply Mmio.Triple.of_pure
  intro _
  apply ack_spec.bind
  intro _
  apply (hits_spec (m := m₁)).bind
  intro h0
  apply Mmio.Triple.of_pure
  rintro rfl
  apply (misses_spec (m := m₁)).bind
  intro m0
  apply Mmio.Triple.of_pure
  rintro rfl
  apply (samples_spec (m := m₁) (Or.inl hhit) hbias hp N).bind
  intro cached
  apply Mmio.Triple.of_pure
  rintro rfl
  apply (hits_spec (m := m₁.tally A N)).bind
  intro h1
  apply Mmio.Triple.of_pure
  rintro rfl
  apply (misses_spec (m := m₁.tally A N)).bind
  intro m1
  apply Mmio.Triple.of_pure
  rintro rfl
  apply (bypass_spec (m := m₁.tally A N) 1).bind
  intro _
  apply (misses_spec (m := m₂)).bind
  intro m2
  apply Mmio.Triple.of_pure
  rintro rfl
  apply (samples_spec (m := m₂) (Or.inr rfl) hbias hp N).bind
  intro bypassed
  apply Mmio.Triple.of_pure
  rintro rfl
  apply (misses_spec (m := m₂.tally A N)).bind
  intro m3
  apply Mmio.Triple.of_pure
  rintro rfl
  apply (bypass_spec (m := m₂.tally A N) 0).bind
  intro _
  apply Mmio.Triple.ret
  intro s hs
  refine ⟨?_, hs.quiescent, congrArg Model.bypass hs.model⟩
  have hhits : (m₁.tally A N).hits - m₁.hits = BitVec.ofNat 32 N := by simp [Model.tally, hhit]
  have hmisses : (m₁.tally A N).misses - m₁.misses = 0 := by simp [Model.tally, hhit]
  have hbypass : (m₂.tally A N).misses - m₂.misses = BitVec.ofNat 32 N := by
    simp [Model.tally, hmiss]
  rw [hhits, hmisses, hbypass, hanswer, hanswer']

end Loops

section Times

variable {q : ShimParams} {m : Model q.engine} {polls g : ℕ} {addr tag : BitVec 32}

/-- A write to a register other than `REQ_FIRE` takes its idle cycles and one more. -/
theorem write_timed {P : Shim.State q → Prop} {Q : PUnit → Shim.State q → Prop} {reg : BitVec 5}
    {v : BitVec 32} (h : Mmio.Triple (bridge q) False P (.write reg v) Q)
    (hreg : reg ≠ addrReqFire) : Mmio.Timed (bridge q) g P (.write reg v) (g + 1) Q := by
  apply Mmio.Timed.of_triple h
  intro s _
  exact bridge_ready_write fun hfire => absurd hfire hreg

theorem read_timed {P : Shim.State q → Prop} {Q : BitVec 32 → Shim.State q → Prop} {reg : BitVec 5}
    (h : Mmio.Triple (bridge q) False P (.read reg) Q) :
    Mmio.Timed (bridge q) g P (.read reg) (g + 1) Q := by
  apply Mmio.Timed.of_triple h
  intro s _
  exact bridge_ready_read reg

theorem pollStatus_timed {r : Request} {d : q.engine.Data} {c k : ℕ} (hk : k / (g + 1) < polls) :
    Mmio.Timed (bridge q) g (Serving r d m c k) (pollStatus polls) ((g + 1) * (k / (g + 1) + 1))
      fun _ => Served r d m := by
  apply Mmio.Timed.poll _ _ _ _ hk
  · intro n s hs
    exact hs.cycle undisturbing_idle
  · intro n s _
    exact bridge_ready_read _
  · intro n s hs
    refine ⟨?_, hs.cycle (undisturbing_read _)⟩
    rw [bridge_data, statusValid_iff, Bool.eq_false_iff, ne_eq, hs.respActive_iff]
    exact Nat.succ_ne_zero n
  · intro s hs
    have hserved : Served r d m s := hs.accepted
    refine ⟨?_, hserved.cycle (undisturbing_read _)⟩
    rw [bridge_data, statusValid_iff]
    exact hs.respActive_iff.mpr rfl

/-- One timed access: six register accesses, and a poll for every whole period of the
service time. -/
theorem timedAccess_timed (hbias : m.bias (addr.extractLsb' 0 q.addrW) = false)
    (hp : 7 < polls) :
    Mmio.Timed (bridge q) g (Rest m) (timedAccess polls addr tag)
      ((g + 1) * (6 + m.serviceTime ⟨false, addr, tag, 0⟩ / (g + 1))) fun v s =>
        v = (m.answer (addr.extractLsb' 0 q.addrW)).setWidth 32 ∧
          Rest (m.access (Request.access q ⟨false, addr, tag, 0⟩)) s := by
  let r : Request := ⟨false, addr, tag, 0⟩
  have hfire : Mmio.Timed (bridge q) g (fun s => Rest m s ∧ Loaded r s)
      (.write addrReqFire r.fireWord) (g + 1) fun _ => Serving r (m.answer (r.addrBits q))
        (m.access (r.access q)) (m.latency r) (m.serviceTime r) := by
    apply Mmio.Timed.of_triple (reqFire_serving hbias)
    rintro s ⟨hs, _⟩
    exact bridge_ready_write fun _ => (rest_stable.iterate g hs).quiescent.pending
  have hpoll : m.serviceTime r / (g + 1) < polls :=
    (Nat.div_le_self _ _).trans_lt ((m.serviceTime_le r).trans_lt hp)
  have hcycles : (g + 1) * (6 + m.serviceTime r / (g + 1)) =
      g + 1 + (g + 1 + (g + 1)) + ((g + 1) * (m.serviceTime r / (g + 1) + 1) +
        (g + 1 + (g + 1))) := by ring
  rw [hcycles]
  apply Mmio.Timed.bind
  · apply (write_timed (reqAddr_spec (r := r)) (by decide)).bind
    intro _
    apply (write_timed reqWdata_spec (by decide)).bind
    intro _
    exact hfire
  · intro _
    apply (pollStatus_timed hpoll).bind
    intro _
    apply (read_timed respRdata_spec).bind
    intro v
    apply Mmio.Timed.of_pure
    intro hv
    apply (write_timed ack_spec (by decide)).map
    intro _ s hs
    exact ⟨hv rfl, hs⟩

/-- The time of `n` accesses that are served in `k` cycles each. -/
def sampleTime (g k n : ℕ) : ℕ := n * ((g + 1) * (6 + k / (g + 1)))

theorem samples_timed (hsteady : m.Steady (addr.extractLsb' 0 q.addrW))
    (hbias : m.bias (addr.extractLsb' 0 q.addrW) = false) (hp : 7 < polls) (N : ℕ) :
    Mmio.Timed (bridge q) g (Rest m) (samples polls N addr tag)
      (sampleTime g (if m.Hit (addr.extractLsb' 0 q.addrW) then 2 else 5) N) fun _ _ => True := by
  let c := (g + 1) * (6 + (if m.Hit (addr.extractLsb' 0 q.addrW) then 2 else 5) / (g + 1))
  have hstep : ∀ (i : ℕ) (l : List ℕ) (vs : List (BitVec 32)), Mmio.Timed (bridge q) g
      (Sampled m addr N (i :: l) vs) (timedAccess polls addr tag) c
      fun v => Sampled m addr N l (vs ++ [v]) := by
    rintro i l vs s ⟨n, hn, hvs, hs⟩
    have htime : (m.tally (addr.extractLsb' 0 q.addrW) n).serviceTime ⟨false, addr, tag, 0⟩ =
        if m.Hit (addr.extractLsb' 0 q.addrW) then 2 else 5 :=
      Model.Steady.serviceTime (m := m.tally (addr.extractLsb' 0 q.addrW) n) hsteady rfl
    have hbias' : (m.tally (addr.extractLsb' 0 q.addrW) n).bias
        (addr.extractLsb' 0 q.addrW) = false := hbias
    obtain ⟨v, s', hrun, hv, hs'⟩ := timedAccess_timed hbias' hp s hs
    rw [htime] at hrun
    exact ⟨v, s', hrun, Sampled.snoc hsteady hn hvs hv hs'⟩
  have hsum : ((List.range N).map fun _ => c).sum = N * c := by simp
  intro s hs
  obtain ⟨vs, s', hrun, _⟩ := Mmio.Timed.sequence hstep (List.range N) [] s
    ⟨0, by simp, rfl, by rwa [Model.tally_zero]⟩
  rw [hsum] at hrun
  exact ⟨vs, s', hrun, trivial⟩

/-- A loop is steady from its second access on. -/
theorem samples_timed_succ (hbias : m.bias (addr.extractLsb' 0 q.addrW) = false)
    (hp : 7 < polls) (N : ℕ) :
    Mmio.Timed (bridge q) g (Rest m) (samples polls (N + 1) addr tag)
      (sampleTime g (m.serviceTime ⟨false, addr, tag, 0⟩) 1 +
        sampleTime g (if m.bypass then 5 else 2) N) fun _ _ => True := by
  let A : q.engine.Addr := addr.extractLsb' 0 q.addrW
  let m' := m.access (Request.access q ⟨false, addr, tag, 0⟩)
  have hnext : m'.Steady A ∧ (if m'.Hit A then 2 else 5) = if m.bypass then 5 else 2 := by
    cases hb : m.bypass with
    | true => exact ⟨Or.inr hb, if_neg (Model.not_hit_of_bypass (m := m') hb A)⟩
    | false =>
        have hhit : m'.Hit A := Model.hit_access hb (Request.access q ⟨false, addr, tag, 0⟩)
        exact ⟨Or.inl hhit, if_pos hhit⟩
  have hbias' : m'.bias A = false := hbias
  have hloop : Mmio.Timed (bridge q) g (Rest m') (samples polls N addr tag)
      (sampleTime g (if m'.Hit A then 2 else 5) N) fun _ _ => True :=
    samples_timed hnext.1 hbias' hp N
  rw [hnext.2] at hloop
  rw [samples, List.range_succ_eq_map, List.map_cons, List.map_map]
  rw [sampleTime, Nat.one_mul]
  apply (timedAccess_timed hbias hp).bind
  intro v
  apply Mmio.Timed.of_pure
  intro _
  apply hloop.map
  intro _ _ _
  trivial

end Times

section Results

variable {q : ShimParams} {x x' : Shim.Undefined q} {bus bus' : ℕ → Bus} {t t' polls : ℕ}

/-- The counters of the experiment are exact. On any shim with nothing pending or
outstanding and the address Device-Biased, however the processor is paced, the first loop
hits and the second misses every time, whatever was cached before. The bypassed loop
reads the word that memory had before the experiment, for the populating write is still
in its line. -/
theorem experiment_exact {addr : BitVec 32} (hq : (Shim.run x bus t).Quiescent)
    (hbias : (Shim.run x bus t).engine.bias (addr.extractLsb' 0 q.addrW) = false)
    (data : BitVec 32) (N : ℕ) (gaps : ℕ → ℕ) :
    ∃ n c, Mmio.run (bridge q) gaps (experiment polls N addr data) (Shim.run x bus t) n = c ∧
      ((∃ v, c.prog = .ret v ∧
        v = ⟨BitVec.ofNat 32 N, 0, BitVec.ofNat 32 N,
          List.replicate N ((data.extractLsb' 0 q.dataW).setWidth 32),
          List.replicate N (((Shim.run x bus t).engine.mem
            (addr.extractLsb' 0 q.addrW)).setWidth 32)⟩ ∧
        c.device.Quiescent ∧ c.device.cacheBypassEn = false) ∨
      c.prog = .exit ∧ polls ≤ 7) :=
  outcome hq (experiment_spec hbias (le_or_gt polls 7) N) gaps

theorem sampleTime_succ (g k N : ℕ) :
    sampleTime g k (N + 1) = sampleTime g k 1 + sampleTime g k N := by
  rw [sampleTime, sampleTime, sampleTime]
  ring

/-- From three reads on, a loop whose first read takes `c` cycles and whose other reads hit
is faster than one that always misses, unless five or more idle cycles hide it. -/
theorem sampleTime_lt_iff {c : ℕ} (hc : c = 2 ∨ c = 5 ∨ c = 7) (g : ℕ) {N : ℕ} (hN : 2 ≤ N) :
    sampleTime g c 1 + sampleTime g 2 N < sampleTime g 5 (N + 1) ↔ g < 5 := by
  rcases Nat.lt_or_ge g 5 with hlt | hge
  · refine iff_of_true ?_ hlt
    rw [sampleTime, sampleTime, sampleTime]
    interval_cases g <;> rcases hc with rfl | rfl | rfl <;> omega
  · refine iff_of_false ?_ (by omega)
    have hhit : 2 / (g + 1) = 0 := Nat.div_eq_of_lt (by omega)
    have hmiss : 5 / (g + 1) = 0 := Nat.div_eq_of_lt (by omega)
    have hsame : sampleTime g 2 N = sampleTime g 5 N := by
      rw [sampleTime, sampleTime, hhit, hmiss]
    have hfirst : sampleTime g 5 1 ≤ sampleTime g c 1 := by
      rw [sampleTime, sampleTime, hmiss, Nat.one_mul, Nat.one_mul]
      exact Nat.mul_le_mul_left _ (Nat.add_le_add_left (Nat.zero_le _) 6)
    rw [sampleTime_succ g 5 N, hsame]
    omega

/-- The service time of a read with the cache on. -/
theorem Model.serviceTime_cached {m : Model q.engine} (hb : m.bypass = false) (addr tag : BitVec 32) :
    m.serviceTime ⟨false, addr, tag, 0⟩ =
      if Resident (geometry q.engine) m.cache.lines (addr.extractLsb' 0 q.addrW) then 2
      else if NeedsWriteBack (geometry q.engine) m.cache.lines (addr.extractLsb' 0 q.addrW) then 7
      else 5 := by
  let A : q.engine.Addr := addr.extractLsb' 0 q.addrW
  have hhit : m.Hit A ↔ Resident (geometry q.engine) m.cache.lines A := Model.hit_iff hb A
  have hevicts : m.Evicts A ↔ NeedsWriteBack (geometry q.engine) m.cache.lines A :=
    and_iff_right hb
  change (if false = true ∨ m.Hit A then 0 else 3) + (if m.Evicts A then 4 else 2) = _
  by_cases hr : Resident (geometry q.engine) m.cache.lines A
  · have hn : ¬ NeedsWriteBack (geometry q.engine) m.cache.lines A := fun hn => hn.2.2 hr
    rw [if_pos (Or.inr (hhit.mpr hr)), if_neg (mt hevicts.mp hn), if_pos hr]
  · rw [if_neg (by simp [hhit, hr]), if_neg hr]
    simp only [hevicts]
    split <;> rfl

/-- What the cache saves in time. Let the processor idle for `g` cycles before every
register access, and let nothing be pending or outstanding and the address be
Device-Biased. With the cache on, the first of `N + 1` timed reads takes what two, five
or seven cycles of service cost and every other what two cost; bypassed each takes what
five cost. From three reads on the loop with the cache is faster if and only if `g` is
less than five: the saving is real, but a slow processor cannot see it. -/
theorem cache_saving {addr : BitVec 32} (hq : (Shim.run x bus t).Quiescent)
    (hb : (Shim.run x bus t).cacheBypassEn = false)
    (hbias : (Shim.run x bus t).engine.bias (addr.extractLsb' 0 q.addrW) = false)
    (hq' : (Shim.run x' bus' t').Quiescent) (hb' : (Shim.run x' bus' t').cacheBypassEn = true)
    (hbias' : (Shim.run x' bus' t').engine.bias (addr.extractLsb' 0 q.addrW) = false)
    (hp : 7 < polls) (tag tag' : BitVec 32) (g N : ℕ) :
    ∃ T T', Mmio.ReturnsAt (bridge q) g (samples polls (N + 1) addr tag) (Shim.run x bus t) T ∧
      Mmio.ReturnsAt (bridge q) g (samples polls (N + 1) addr tag') (Shim.run x' bus' t') T' ∧
      T = sampleTime g (if Resident (geometry q.engine) (Shim.run x bus t).engine.cache
          (addr.extractLsb' 0 q.addrW) then 2
        else if NeedsWriteBack (geometry q.engine) (Shim.run x bus t).engine.cache
          (addr.extractLsb' 0 q.addrW) then 7 else 5) 1 + sampleTime g 2 N ∧
      T' = sampleTime g 5 (N + 1) ∧ (2 ≤ N → (T < T' ↔ g < 5)) := by
  refine ⟨_, _, ?_, ?_, rfl, rfl, fun hN => ?_⟩
  · have hcached : (Model.ofShim (Shim.run x bus t)).bypass = false := hb
    have htime : Mmio.Timed (bridge q) g (Rest (Model.ofShim (Shim.run x bus t)))
        (samples polls (N + 1) addr tag) _ fun _ _ => True :=
      samples_timed_succ hbias hp N
    rw [Model.serviceTime_cached hcached, hcached] at htime
    exact htime.returnsAt (rest_of_quiescent hq)
  · have hbypass : (Model.ofShim (Shim.run x' bus' t')).bypass = true := hb'
    have htime : Mmio.Timed (bridge q) g (Rest (Model.ofShim (Shim.run x' bus' t')))
        (samples polls (N + 1) addr tag') _ fun _ _ => True :=
      samples_timed_succ hbias' hp N
    rw [Model.Steady.serviceTime (Or.inr hbypass) rfl, if_neg (Model.not_hit_of_bypass hbypass _),
      if_pos hbypass, ← sampleTime_succ] at htime
    exact htime.returnsAt (rest_of_quiescent hq')
  · apply sampleTime_lt_iff _ g hN
    split
    · exact Or.inl rfl
    split
    · exact Or.inr (Or.inr rfl)
    · exact Or.inr (Or.inl rfl)

end Results

section Demonstration

theorem experiment_exact_powerOn :
    ∃ n, (Mmio.run (bridge defaultShim) (fun n => n) (experiment 8 3 0x40 0xCAFED00D)
      (Shim.run powerOnZero (fun _ => Bus.idle) 0) n).prog =
        .ret ⟨3, 0, 3, [0xCAFED00D, 0xCAFED00D, 0xCAFED00D], [0, 0, 0]⟩ := by
  obtain ⟨n, c, hrun, ⟨v, hprog, hv, _⟩ | ⟨_, hpolls⟩⟩ :=
    @experiment_exact defaultShim powerOnZero (fun _ => Bus.idle) 0 8 0x40
      ⟨rfl, rfl, rfl, fun _ => rfl⟩ rfl 0xCAFED00D 3 fun n => n
  · exact ⟨n, by rw [hrun, hprog, hv]; rfl⟩
  · omega

/-- The bus of a program that bypasses the cache first. -/
def bypassBus : ℕ → Bus := Shim.script [(addrCacheBypass, 1)]

theorem quiescent_bypassBus : (Shim.run powerOnZero bypassBus 1).Quiescent := by
  have hzero : (powerOn powerOnZero).Quiescent := ⟨rfl, rfl, rfl, fun _ => rfl⟩
  have hoffer : (powerOn powerOnZero).engine.OfferReady := by
    intro h
    cases h
  exact hzero.edge hoffer (b := bypassBus 0) rfl rfl

/-- Without idle cycles, ten reads of a cold address take 83 cycles with the cache on and
110 cycles past it. -/
theorem cache_saving_powerOn :
    Mmio.ReturnsAt (bridge defaultShim) 0 (samples 8 10 0x40 2)
        (Shim.run powerOnZero (fun _ => Bus.idle) 0) 83 ∧
      Mmio.ReturnsAt (bridge defaultShim) 0 (samples 8 10 0x40 3)
        (Shim.run powerOnZero bypassBus 1) 110 := by
  obtain ⟨T, T', hcached, hpast, hT, hT', _⟩ :=
    @cache_saving defaultShim powerOnZero powerOnZero (fun _ => Bus.idle) bypassBus 0 1 8 0x40
      ⟨rfl, rfl, rfl, fun _ => rfl⟩ rfl rfl quiescent_bypassBus rfl rfl (by decide) 2 3 0 9
  have hT : T = 83 := hT
  have hT' : T' = 110 := hT'
  subst hT hT'
  exact ⟨hcached, hpast⟩

end Demonstration

end CxlLite.Hps
