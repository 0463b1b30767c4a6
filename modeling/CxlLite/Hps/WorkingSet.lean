import CxlLite.Hps.Script
import CxlLite.Storage.Sweep
import Mathlib.Data.BitVec
import Mathlib.Tactic.Ring

/-!
# The working-set test

The program writes a list of words, reads them back and counts the mismatches.
It also reports by how much the hit and miss counters have moved. Addresses that
share a line evict each other, and only the counters show it.
-/

namespace CxlLite.Hps

open DirectMapped Engine Shim

section Model

variable {p : Params} {m : Model p} {a : p.Addr} {d : p.Data}

namespace Model

/-- The sequential model after a list of accesses. -/
def serve (m : Model p) (l : List (WriteBackCache.Access p.Addr p.Data)) : Model p :=
  l.foldl access m

variable {l : List (WriteBackCache.Access p.Addr p.Data)}

theorem serve_append (m : Model p) (l : List (WriteBackCache.Access p.Addr p.Data))
    (r : WriteBackCache.Access p.Addr p.Data) : m.serve (l ++ [r]) = (m.serve l).access r := by
  rw [serve, List.foldl_append]
  rfl

@[simp] theorem serve_bias : (m.serve l).bias = m.bias := by
  induction l generalizing m with
  | nil => rfl
  | cons r l ih => exact ih (m := m.access r)

@[simp] theorem serve_bypass : (m.serve l).bypass = m.bypass := by
  induction l generalizing m with
  | nil => rfl
  | cons r l ih => exact ih (m := m.access r)

theorem hit_iff (hb : m.bypass = false) (a : p.Addr) :
    m.Hit a ↔ Resident (geometry p) m.cache.lines a := and_iff_right hb

/-- A bypassed request never hits. -/
theorem not_hit_of_bypass (hb : m.bypass = true) (a : p.Addr) : ¬ m.Hit a := by
  rintro ⟨h, _⟩
  rw [hb] at h
  cases h

theorem access_cache (hb : m.bypass = false) (r : WriteBackCache.Access p.Addr p.Data) :
    (m.access r).cache = WriteBackCache.step (geometry p) m.cache r := by
  rw [access, cacheAfter, if_neg (by simp [hb])]

/-- With the cache on, lines and memory follow the reference cache. -/
theorem serve_cache (hb : m.bypass = false) :
    (m.serve l).cache = WriteBackCache.run (geometry p) m.cache l := by
  induction l generalizing m with
  | nil => rfl
  | cons r l ih =>
      have h := ih (m := m.access r) hb
      rw [access_cache hb] at h
      exact h

/-- Every access is counted, as a hit or as a miss. -/
theorem serve_hits_add_misses :
    (m.serve l).hits + (m.serve l).misses = m.hits + m.misses + BitVec.ofNat 32 l.length := by
  induction l generalizing m with
  | nil => simp [serve]
  | cons r l ih =>
      have hone : (m.access r).hits + (m.access r).misses = m.hits + m.misses + 1#32 := by
        rw [access]
        split
        · change m.hits + 1 + m.misses = _
          rw [BitVec.add_assoc, BitVec.add_comm 1, ← BitVec.add_assoc]
          rfl
        · exact (BitVec.add_assoc ..).symm
      calc
        (m.serve (r :: l)).hits + (m.serve (r :: l)).misses
            = (m.access r).hits + (m.access r).misses + BitVec.ofNat 32 l.length :=
          ih (m := m.access r)
        _ = m.hits + m.misses + BitVec.ofNat 32 (r :: l).length := by
          rw [hone, List.length_cons, BitVec.ofNat_add, BitVec.add_assoc, BitVec.add_comm 1#32]

/-- The hits are those of the reference cache. -/
theorem serve_hits (hb : m.bypass = false) :
    (m.serve l).hits =
      m.hits + BitVec.ofNat 32 (WriteBackCache.hitCount (geometry p) m.cache l) := by
  induction l generalizing m with
  | nil => simp [serve, WriteBackCache.hitCount]
  | cons r l ih =>
      have h := ih (m := m.access r) hb
      have hone : (m.access r).hits =
          m.hits + BitVec.ofNat 32 (if Resident (geometry p) m.cache.lines r.addr then 1 else 0) := by
        rw [access]
        simp only [hit_iff hb]
        split <;> simp
      rw [access_cache hb, hone, BitVec.add_assoc, ← BitVec.ofNat_add] at h
      exact h

/-- A read of an address returns what the address stands for. -/
theorem answer_of_stands (hb : m.bypass = false) (h : m.cache.Stands (geometry p) a d) :
    m.answer a = d := by
  have hserved := h.served
  simp only [answer, hit_iff hb]
  exact hserved

end Model

end Model

section Program

/-- One line of the working set. -/
structure Entry where
  addr : BitVec 32
  data : BitVec 32

/-- The writes of `test_working_set_exceeds_cache`: `fire`, `wait_valid`, acknowledge. -/
def issue (polls : ℕ) (r : Request) : Prog PUnit := do
  fire r
  let _ ← waitValid polls
  .write addrRespAck 1

/-- Its reads: `fire`, `wait_valid`, `got`, acknowledge. -/
def fetch (polls : ℕ) (r : Request) : Prog (BitVec 32) := do
  fire r
  let _ ← waitValid polls
  let got ← .read addrRespRdata
  .write addrRespAck 1
  return got

def Entry.write (e : Entry) : Request := ⟨true, e.addr, 1, e.data⟩

def Entry.read (e : Entry) : Request := ⟨false, e.addr, 1, 0⟩

/-- What the test adds to `errors`, and the differences that it prints. -/
structure Report where
  errors : ℕ
  hits : BitVec 32
  misses : BitVec 32
  deriving DecidableEq

/-- The comparison of a line that was read back. -/
def readBack (polls : ℕ) (e : Entry) : Prog Bool := do
  let got ← fetch polls e.read
  return got != e.data

/-- `test_working_set_exceeds_cache`, for any working set. -/
def workingSet (polls : ℕ) (entries : List Entry) : Prog Report := do
  let h0 ← hits
  let m0 ← misses
  let _ ← .sequence (entries.map fun e => issue polls e.write)
  let bad ← .sequence (entries.map (readBack polls))
  let h1 ← hits
  let m1 ← misses
  return ⟨bad.count true, h1 - h0, m1 - m0⟩

end Program

section Requests

variable {q : ShimParams} {X : Prop} {m : Model q.engine} {r : Request} {polls : ℕ}

theorem issue_spec (hbias : m.bias (r.addrBits q) = false) (hp : X ∨ 7 < polls) :
    Mmio.Triple (bridge q) X (Rest m) (issue polls r) fun _ => Rest (m.access (r.access q)) := by
  apply (fire_spec hbias).bind
  intro _
  apply (waitValid_spec (enough_polls hp)).bind
  intro _
  apply Mmio.Triple.of_pure
  intro _
  exact ack_spec

theorem fetch_spec (hr : r.isWrite = false) (hbias : m.bias (r.addrBits q) = false)
    (hp : X ∨ 7 < polls) :
    Mmio.Triple (bridge q) X (Rest m) (fetch polls r) fun v s =>
      v = (m.answer (r.addrBits q)).setWidth 32 ∧ Rest (m.access (r.access q)) s := by
  apply (fire_spec hbias).bind
  intro _
  apply (waitValid_spec (enough_polls hp)).bind
  intro _
  apply Mmio.Triple.of_pure
  intro _
  apply respRdata_spec.bind
  intro v
  apply Mmio.Triple.of_pure
  intro hv
  apply ack_spec.bind
  intro _
  apply Mmio.Triple.ret
  intro s hs
  exact ⟨hv hr, hs⟩

end Requests

section Sweeps

variable (q : ShimParams)

/-- The address of an entry as the engine sees it. -/
def Entry.key (e : Entry) : q.engine.Addr := e.addr.extractLsb' 0 q.addrW

def Entry.writes (entries : List Entry) :
    List (WriteBackCache.Access q.engine.Addr q.engine.Data) :=
  entries.map fun e => e.write.access q

def Entry.reads (entries : List Entry) :
    List (WriteBackCache.Access q.engine.Addr q.engine.Data) :=
  entries.map fun e => e.read.access q

/-- The data that a list of entries writes last to the address of `e`. -/
def Entry.final (entries : List Entry) (e : Entry) : BitVec 32 :=
  ((entries.reverse.find? fun e' => e'.key q == e.key q).getD e).data

/-- The word that reading `e` back returns. -/
def Entry.expected (entries : List Entry) (e : Entry) : BitVec 32 :=
  ((Entry.final q entries e).extractLsb' 0 q.dataW).setWidth 32

variable {q} {X : Prop} {m : Model q.engine} {polls : ℕ} {entries : List Entry}

theorem Entry.lastWrite {e : Entry} (he : e ∈ entries) :
    WriteBackCache.LastWrite (Entry.writes q entries) (e.key q)
      ((Entry.final q entries e).extractLsb' 0 q.dataW) := by
  obtain ⟨w, hw⟩ : ∃ w, entries.reverse.find? (fun e' => e'.key q == e.key q) = some w := by
    rw [← Option.isSome_iff_exists, List.find?_isSome]
    exact ⟨e, List.mem_reverse.mpr he, by simp⟩
  obtain ⟨hkey, after, before, hsplit, hno⟩ := List.find?_eq_some_iff_append.mp hw
  have hentries : entries = before.reverse ++ w :: after.reverse := by
    rw [← List.reverse_reverse entries, hsplit]
    simp
  have hfinal : Entry.final q entries e = w.data := by rw [Entry.final, hw]; rfl
  rw [hfinal]
  refine ⟨Entry.writes q before.reverse, w.write.access q, Entry.writes q after.reverse, ?_, rfl,
    beq_iff_eq.mp hkey, rfl, ?_⟩
  · rw [hentries, Entry.writes, List.map_append]
    rfl
  · intro r hr _ haddr
    obtain ⟨e', he', rfl⟩ := List.mem_map.mp hr
    have hne := hno e' (List.mem_reverse.mp he')
    rw [show e'.key q = e.key q from haddr] at hne
    simp at hne

theorem Entry.not_mem_reads {r : WriteBackCache.Access q.engine.Addr q.engine.Data}
    (h : r ∈ Entry.reads q entries) : r.isWrite = false := by
  obtain ⟨e, _, rfl⟩ := List.mem_map.mp h
  rfl

/-- Reading back returns the last word written, at any point of the read sweep. -/
theorem answer_of_sweep (hb : m.bypass = false) (pre : List Entry) {e : Entry}
    (he : e ∈ entries) :
    (m.serve (Entry.writes q entries ++ Entry.reads q pre)).answer (e.key q) =
      (Entry.final q entries e).extractLsb' 0 q.dataW := by
  apply Model.answer_of_stands
  · rw [Model.serve_bypass, hb]
  · rw [Model.serve_cache hb, WriteBackCache.run_append_list]
    apply (WriteBackCache.stands_of_lastWrite (Entry.lastWrite he)).run_of_no_write
    intro r hr hw
    rw [Entry.not_mem_reads hr] at hw
    cases hw

/-- The write sweep. -/
theorem writes_spec (hbias : ∀ e ∈ entries, m.bias (e.key q) = false) (hp : X ∨ 7 < polls) :
    Mmio.Triple (bridge q) X (Rest m)
      (.sequence (entries.map fun e => issue polls e.write)) fun _ =>
        Rest (m.serve (Entry.writes q entries)) := by
  refine (Mmio.Triple.sequence (I := fun l _ s => ∃ pre, pre ++ l = entries ∧
    Rest (m.serve (Entry.writes q pre)) s) ?_ entries []).conseq ?_ ?_
  · rintro e l _ s ⟨pre, rfl, hs⟩
    have he : m.bias (e.key q) = false := hbias e (by simp)
    have hissue := issue_spec (r := e.write) (m := m.serve (Entry.writes q pre)) (X := X)
      (by rw [Model.serve_bias]; exact he) hp
    apply Mmio.wp_mono _ (hissue s hs)
    intro _ s' hs'
    refine ⟨pre ++ [e], by simp, ?_⟩
    rw [Entry.writes, List.map_append, List.map_singleton, Model.serve_append]
    exact hs'
  · intro s hs
    exact ⟨[], rfl, hs⟩
  · rintro _ s ⟨pre, hpre, hs⟩
    rwa [← hpre, List.append_nil]

/-- The read sweep finds a mismatch where the word written last differs. -/
theorem reads_spec (hb : m.bypass = false) (hbias : ∀ e ∈ entries, m.bias (e.key q) = false)
    (hp : X ∨ 7 < polls) :
    Mmio.Triple (bridge q) X (Rest (m.serve (Entry.writes q entries)))
      (.sequence (entries.map (readBack polls))) fun bad s =>
        bad = entries.map (fun e => Entry.expected q entries e != e.data) ∧
          Rest (m.serve (Entry.writes q entries ++ Entry.reads q entries)) s := by
  refine (Mmio.Triple.sequence (I := fun l bad s => ∃ pre, pre ++ l = entries ∧
    bad = pre.map (fun e => Entry.expected q entries e != e.data) ∧
      Rest (m.serve (Entry.writes q entries ++ Entry.reads q pre)) s) ?_ entries []).conseq ?_ ?_
  · rintro e l bad s ⟨pre, hpre, rfl, hs⟩
    have he : e ∈ entries := by
      rw [← hpre]
      simp
    have hfetch := fetch_spec (r := e.read)
      (m := m.serve (Entry.writes q entries ++ Entry.reads q pre)) (X := X) rfl
      (by rw [Model.serve_bias]; exact hbias e he) hp
    have hback : Mmio.Triple (bridge q) X
        (Rest (m.serve (Entry.writes q entries ++ Entry.reads q pre))) (readBack polls e)
        fun b s => b = (Entry.expected q entries e != e.data) ∧
          Rest (m.serve (Entry.writes q entries ++ Entry.reads q (pre ++ [e]))) s := by
      apply hfetch.bind
      intro v
      apply Mmio.Triple.of_pure
      intro hv
      apply Mmio.Triple.ret
      intro s hs
      rw [Entry.reads, List.map_append, List.map_singleton, ← List.append_assoc,
        Model.serve_append]
      refine ⟨?_, hs⟩
      rw [hv, show e.read.addrBits q = e.key q from rfl, answer_of_sweep hb pre he, Entry.expected]
    apply Mmio.wp_mono _ (hback s hs)
    rintro b s' ⟨rfl, hs'⟩
    exact ⟨pre ++ [e], by simpa using hpre, by simp, hs'⟩
  · intro s hs
    refine ⟨[], rfl, rfl, ?_⟩
    rw [Entry.reads, List.map_nil, List.append_nil]
    exact hs
  · rintro bad s ⟨pre, hpre, hbad, hs⟩
    rw [List.append_nil] at hpre
    subst hpre
    exact ⟨hbad, hs⟩

/-- The report of a working set on a shim that stands for `m`. -/
def Entry.report (m : Model q.engine) (entries : List Entry) : Report where
  errors := entries.countP fun e => Entry.expected q entries e != e.data
  hits := (m.serve (Entry.writes q entries ++ Entry.reads q entries)).hits - m.hits
  misses := (m.serve (Entry.writes q entries ++ Entry.reads q entries)).misses - m.misses

theorem workingSet_spec (hb : m.bypass = false)
    (hbias : ∀ e ∈ entries, m.bias (e.key q) = false) (hp : X ∨ 7 < polls) :
    Mmio.Triple (bridge q) X (Rest m) (workingSet polls entries) fun v s =>
      v = Entry.report m entries ∧
        Rest (m.serve (Entry.writes q entries ++ Entry.reads q entries)) s := by
  apply hits_spec.bind
  intro h0
  apply Mmio.Triple.of_pure
  rintro rfl
  apply misses_spec.bind
  intro m0
  apply Mmio.Triple.of_pure
  rintro rfl
  apply (writes_spec hbias hp).bind
  intro _
  apply (reads_spec hb hbias hp).bind
  intro bad
  apply Mmio.Triple.of_pure
  rintro rfl
  apply hits_spec.bind
  intro h1
  apply Mmio.Triple.of_pure
  rintro rfl
  apply misses_spec.bind
  intro m1
  apply Mmio.Triple.of_pure
  rintro rfl
  apply Mmio.Triple.ret
  intro s hs
  refine ⟨?_, hs⟩
  rw [Entry.report, List.count, List.countP_map]
  congr 2
  funext e
  simp

end Sweeps

section Results

variable {q : ShimParams} {entries : List Entry}

/-- The low `w` bits of a word are the word if and only if it fits. -/
theorem setWidth_low_iff {w : ℕ} (d : BitVec 32) :
    (d.extractLsb' 0 w).setWidth 32 = d ↔ d.toNat < 2 ^ w := by
  have hlt := (d.extractLsb' 0 w).isLt
  have hword := d.isLt
  rw [← BitVec.toNat_inj, BitVec.toNat_setWidth]
  constructor
  · intro h
    have hmod := Nat.mod_le (d.extractLsb' 0 w).toNat (2 ^ 32)
    omega
  · intro h
    rw [BitVec.extractLsb'_toNat, Nat.shiftRight_zero, Nat.mod_eq_of_lt h, Nat.mod_eq_of_lt hword]

/-- What is reported of a word that comes back through `w` bits: whether it does not fit. -/
theorem low_bne {w : ℕ} (d : BitVec 32) :
    ((d.extractLsb' 0 w).setWidth 32 != d) = !decide (d.toNat < 2 ^ w) := by
  have hiff := setWidth_low_iff (w := w) d
  by_cases h : d.toNat < 2 ^ w
  · simp [h, hiff.mpr h]
  · have hne := mt hiff.mp h
    simp [h, hne]

/-- Data that fits is read back unchanged when the addresses differ. -/
theorem errors_eq_zero (hnd : (entries.map fun e => e.key q).Nodup)
    (hfit : ∀ e ∈ entries, e.data.toNat < 2 ^ q.dataW) (m : Model q.engine) :
    (Entry.report m entries).errors = 0 := by
  apply List.countP_eq_zero.mpr
  intro e he
  have hfinal : Entry.final q entries e = e.data := by
    rw [Entry.final]
    cases hfind : entries.reverse.find? (fun e' => e'.key q == e.key q) with
    | none => rfl
    | some w =>
        have hkey : w.key q = e.key q := by simpa using List.find?_some hfind
        have hw : w ∈ entries := List.mem_reverse.mp (List.mem_of_find?_eq_some hfind)
        rw [List.inj_on_of_nodup_map hnd hw he hkey]
        rfl
  have hdata := (setWidth_low_iff e.data).mpr (hfit e he)
  simp [Entry.expected, hfinal, hdata]

/-- Every access of the test is counted once. -/
theorem hits_add_misses (m : Model q.engine) :
    (Entry.report m entries).hits + (Entry.report m entries).misses =
      BitVec.ofNat 32 (2 * entries.length) := by
  have htotal := Model.serve_hits_add_misses (m := m)
    (l := Entry.writes q entries ++ Entry.reads q entries)
  have hlen : (Entry.writes q entries ++ Entry.reads q entries).length = 2 * entries.length := by
    rw [Entry.writes, Entry.reads, List.length_append, List.length_map, List.length_map]
    omega
  rw [hlen] at htotal
  simp only [Entry.report]
  calc
    _ = (m.serve (Entry.writes q entries ++ Entry.reads q entries)).hits +
          (m.serve (Entry.writes q entries ++ Entry.reads q entries)).misses -
            (m.hits + m.misses) := by ring
    _ = BitVec.ofNat 32 (2 * entries.length) := by rw [htotal]; ring

/-- Over different addresses, none of which is resident at the start, only the reads
of lines that stand alone hit. -/
theorem hits_eq_alone {m : Model q.engine} (hb : m.bypass = false)
    (hnd : (entries.map fun e => e.key q).Nodup)
    (hfresh : ∀ e ∈ entries, ¬ Resident (geometry q.engine) m.cache.lines (e.key q)) :
    (Entry.report m entries).hits = BitVec.ofNat 32 (entries.countP fun e =>
      decide (WriteBackCache.Alone (geometry q.engine) (fun e => e.key q) entries e)) := by
  have hhits := Model.serve_hits (l := Entry.writes q entries ++ Entry.reads q entries) hb
  have hwrites : WriteBackCache.hitCount (geometry q.engine) m.cache (Entry.writes q entries) = 0 :=
    WriteBackCache.hitCount_of_fresh (geometry q.engine) (fun _ => rfl) hnd hfresh
  have hreads : WriteBackCache.hitCount (geometry q.engine)
      (WriteBackCache.run (geometry q.engine) m.cache (Entry.writes q entries))
      (Entry.reads q entries) = entries.countP fun e => decide
        (WriteBackCache.Alone (geometry q.engine) (fun e => e.key q) entries e) :=
    WriteBackCache.hitCount_second (geometry q.engine) (fun _ => rfl) (fun _ => rfl) hnd
  rw [WriteBackCache.hitCount_append, hwrites, hreads, Nat.zero_add] at hhits
  simp only [Entry.report, hhits]
  ring

/-- The working-set test is exact. From any state with nothing pending or
outstanding, the cache on and the addresses Device-Biased, whatever the cache holds
and however the processor is paced, the test counts as errors exactly the entries
whose data is not what was written last to their address, and its counters add up
to two accesses for each entry. Over different addresses there are no errors if the
data fits, and if none of them was resident the hits are the entries that share
their index with no other. -/
theorem working_set {x : Shim.Undefined q} {bus : ℕ → Bus} {t : ℕ}
    (hq : (Shim.run x bus t).Quiescent) (hb : (Shim.run x bus t).cacheBypassEn = false)
    (hbias : ∀ e ∈ entries, (Shim.run x bus t).engine.bias (e.key q) = false)
    (polls : ℕ) (gaps : ℕ → ℕ) :
    ∃ n c, Mmio.run (bridge q) gaps (workingSet polls entries) (Shim.run x bus t) n = c ∧
      ((∃ v, c.prog = .ret v ∧
        v.errors = entries.countP (fun e => Entry.expected q entries e != e.data) ∧
        v.hits + v.misses = BitVec.ofNat 32 (2 * entries.length) ∧
        ((entries.map fun e => e.key q).Nodup →
          ((∀ e ∈ entries, e.data.toNat < 2 ^ q.dataW) → v.errors = 0) ∧
          ((∀ e ∈ entries, ¬ Resident (geometry q.engine) (Shim.run x bus t).engine.cache
              (e.key q)) →
            v.hits = BitVec.ofNat 32 (entries.countP fun e => decide
              (WriteBackCache.Alone (geometry q.engine) (fun e => e.key q) entries e))))) ∨
      c.prog = .exit ∧ polls ≤ 7) := by
  have hspec := workingSet_spec (X := polls ≤ 7) (m := Model.ofShim (Shim.run x bus t)) hb hbias
    (le_or_gt polls 7)
  obtain ⟨n, c, hrun, ⟨v, hprog, rfl, _⟩ | hexit⟩ := outcome hq hspec gaps
  · refine ⟨n, c, hrun, Or.inl ⟨_, hprog, rfl, hits_add_misses _, ?_⟩⟩
    intro hnd
    constructor
    · intro hfit
      exact errors_eq_zero hnd hfit _
    · intro hfresh
      exact hits_eq_alone hb hnd hfresh
  · exact ⟨n, c, hrun, Or.inr hexit⟩

end Results

section Demonstration

/-- Two lines that share index 0 and one that does not. -/
def threeLines : List Entry := [⟨0x80, 0xC0000000⟩, ⟨0x90, 0xC0000010⟩, ⟨0x88, 0xC0000008⟩]

/-- Only the line that stands alone is served from the cache. -/
theorem working_set_threeLines :
    ∃ n v, (Mmio.run (bridge defaultShim) (fun n => n) (workingSet 8 threeLines)
        (Shim.run powerOnZero (fun _ => Bus.idle) 0) n).prog = .ret v ∧
      v.errors = 0 ∧ v.hits = 1 ∧ v.hits + v.misses = 6 := by
  have hbias : ∀ e ∈ threeLines, (Shim.run powerOnZero (fun _ => Bus.idle) 0).engine.bias
      (e.key defaultShim) = false := fun _ _ => rfl
  obtain ⟨n, c, hrun, ⟨v, hprog, _, htotal, hdistinct⟩ | ⟨_, hpolls⟩⟩ :=
    @working_set defaultShim threeLines powerOnZero (fun _ => Bus.idle) 0
      ⟨rfl, rfl, rfl, fun _ => rfl⟩ rfl hbias 8 fun n => n
  · obtain ⟨hfit, hfresh⟩ := hdistinct (by decide)
    refine ⟨n, v, by rw [hrun, hprog], hfit (by decide), ?_, htotal⟩
    rw [hfresh fun e _ hr => by cases hr.1]
    decide
  · omega

end Demonstration

end CxlLite.Hps
