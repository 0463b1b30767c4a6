import CxlLite.Hps.CacheTests

/-!
# The cache is transparent

Apart from the counters, a host program cannot tell a shim with the cache on from
one that is bypassed: both return what a flat memory with a bias bit for each
address returns.
-/

namespace CxlLite.Hps

open DirectMapped Engine Shim

section FlatMemory

/-- A memory without a cache, and a bias bit for each address. -/
structure Flat (p : Params) where
  mem : p.Addr → p.Data
  bias : BiasTable p

namespace Flat

variable {q : ShimParams}

/-- A request to the flat memory. -/
def access {p : Params} (f : Flat p) (r : WriteBackCache.Access p.Addr p.Data) : Flat p :=
  { f with mem := if r.isWrite then Function.update f.mem r.addr r.wdata else f.mem }

def setBias {p : Params} (f : Flat p) (a : p.Addr) (hostBiased : Bool) : Flat p :=
  { f with bias := Function.update f.bias a hostBiased }

/-- A call against the flat memory, which has neither a bypass control nor counters. -/
def perform (f : Flat q.engine) : Op → Reply × Flat q.engine
  | .write addr tag wdata =>
      let r : Request := ⟨true, addr, tag, wdata⟩
      (.response r.statusWord ((r.tagBits q).setWidth 32) none, f.access (r.access q))
  | .read addr tag =>
      let r : Request := ⟨false, addr, tag, 0⟩
      (.response r.statusWord ((r.tagBits q).setWidth 32)
        (some ((f.mem (r.addrBits q)).setWidth 32)), f.access (r.access q))
  | .handshake isWrite addr tag wdata =>
      let r : Request := ⟨isWrite, addr, tag, wdata⟩
      (.handshake ((r.addrBits q).setWidth 32) 0 r.statusWord ((r.tagBits q).setWidth 32),
        (f.setBias (r.addrBits q) false).access (r.access q))
  | .biasWrite addr hostBiased => (.done, f.setBias (addr.extractLsb' 0 q.addrW) hostBiased)
  | .biasRead addr => (.word (biasWord (f.bias (addr.extractLsb' 0 q.addrW))), f)
  | .bypass _ | .counters => (.done, f)

/-- A plain request needs a Device-Biased address. -/
def Admits (f : Flat q.engine) : Op → Prop
  | .write addr _ _ | .read addr _ => f.bias (addr.extractLsb' 0 q.addrW) = false
  | _ => True

def AdmitsAll (f : Flat q.engine) : List Op → Prop
  | [] => True
  | op :: ops => f.Admits op ∧ (f.perform op).2.AdmitsAll ops

/-- The replies of the flat memory. -/
def replies (f : Flat q.engine) : List Op → List Reply
  | [] => []
  | op :: ops => (f.perform op).1 :: (f.perform op).2.replies ops

/-- The flat memory after a list of calls. -/
def after (f : Flat q.engine) (ops : List Op) : Flat q.engine :=
  ops.foldl (fun f op => (f.perform op).2) f

end Flat

/-- The call looks at neither the bypass control nor the counters. -/
def Op.Plain : Op → Prop
  | .bypass _ | .counters => False
  | _ => True

end FlatMemory

section Simulation

variable {p : Params} {m : Model p} {f : Flat p} {a : p.Addr} {d : p.Data}

namespace Model

/-- The model serves `a` with `d` until `a` is written: through a coherent cache, or
past it. -/
def Serves (m : Model p) (a : p.Addr) (d : p.Data) : Prop :=
  if m.bypass then m.cache.mem a = d else m.cache.Stands (geometry p) a d

/-- To software the model is the flat memory. -/
structure Flattens (m : Model p) (f : Flat p) : Prop where
  bias : m.bias = f.bias
  serves : ∀ a, m.Serves a (f.mem a)

theorem Serves.answer (h : m.Serves a d) : m.answer a = d := by
  rw [Serves] at h
  cases hb : m.bypass with
  | true =>
      rw [hb, if_pos rfl] at h
      rw [Model.answer, if_neg (not_hit_of_bypass hb a), h]
  | false =>
      rw [if_neg (by simp [hb])] at h
      exact answer_of_stands hb h

/-- The address of a write is served with its word, whatever was there. -/
theorem serves_of_write {r : WriteBackCache.Access p.Addr p.Data} (hw : r.isWrite = true) :
    (m.access r).Serves r.addr r.wdata := by
  rw [Serves, access_bypass]
  cases hb : m.bypass with
  | true =>
      rw [if_pos rfl, Model.access, cacheAfter, if_pos hb, hw, if_pos rfl]
      exact Function.update_self ..
  | false =>
      rw [if_neg (by simp), access_cache hb]
      exact WriteBackCache.stands_of_write hw

/-- A request changes what its own address is served with, if it is a write, and
nothing else. -/
theorem Serves.access (h : m.Serves a d) (r : WriteBackCache.Access p.Addr p.Data) :
    (m.access r).Serves a (if r.isWrite = true ∧ r.addr = a then r.wdata else d) := by
  rw [Serves] at h ⊢
  rw [access_bypass]
  cases hb : m.bypass with
  | true =>
      rw [hb, if_pos rfl] at h
      rw [if_pos rfl, Model.access, cacheAfter, if_pos hb]
      cases hw : r.isWrite with
      | true => simp [Function.update_apply, h, eq_comm]
      | false => simp [h]
  | false =>
      rw [if_neg (by simp [hb])] at h
      rw [if_neg (by simp), access_cache hb]
      by_cases ha : r.addr = a
      · cases hw : r.isWrite with
        | true =>
            rw [if_pos ⟨rfl, ha⟩, ← ha]
            exact WriteBackCache.stands_of_write hw
        | false =>
            rw [if_neg (by simp)]
            exact h.step_of_read hw ha
      · rw [if_neg fun hwa => ha hwa.2]
        exact h.step_of_ne ha

theorem Flattens.access (h : m.Flattens f) (r : WriteBackCache.Access p.Addr p.Data) :
    (m.access r).Flattens (f.access r) where
  bias := h.bias
  serves a := by
    have hserves := (h.serves a).access r
    rw [Flat.access]
    cases hw : r.isWrite with
    | true => simpa [hw, Function.update_apply, eq_comm] using hserves
    | false => simpa [hw] using hserves

theorem Flattens.setBias (h : m.Flattens f) (a : p.Addr) (hostBiased : Bool) :
    (m.setBias a hostBiased).Flattens (f.setBias a hostBiased) where
  bias := by rw [Model.setBias, Flat.setBias, h.bias]
  serves := h.serves

end Model

variable {q : ShimParams} {m : Model q.engine} {f : Flat q.engine}

namespace Model

theorem Flattens.admits_iff (h : m.Flattens f) (op : Op) : m.Admits op ↔ f.Admits op := by
  cases op <;> simp only [Model.Admits, Flat.Admits, h.bias]

/-- One call: the flat memory gives the reply, and keeps up. -/
theorem Flattens.perform (h : m.Flattens f) {op : Op} (hop : op.Plain) :
    (m.perform op).1 = (f.perform op).1 ∧ (m.perform op).2.Flattens (f.perform op).2 := by
  cases op with
  | write addr tag wdata => exact ⟨rfl, h.access _⟩
  | read addr tag =>
      refine ⟨?_, h.access _⟩
      rw [Model.perform, Flat.perform, (h.serves _).answer]
  | handshake isWrite addr tag wdata => exact ⟨rfl, (h.setBias _ false).access _⟩
  | biasWrite addr hostBiased => exact ⟨rfl, h.setBias _ hostBiased⟩
  | biasRead addr =>
      refine ⟨?_, h⟩
      rw [Model.perform, Flat.perform, h.bias]
  | bypass v => exact hop.elim
  | counters => exact hop.elim

/-- A whole script: induction on its calls, from any model and the flat memory that it
stands for. -/
theorem Flattens.replies {ops : List Op} (h : m.Flattens f) (hops : ∀ op ∈ ops, op.Plain)
    (hadmits : f.AdmitsAll ops) :
    m.AdmitsAll ops ∧ m.replies ops = f.replies ops ∧ (m.after ops).Flattens (f.after ops) := by
  induction ops generalizing m f with
  | nil => exact ⟨trivial, rfl, h⟩
  | cons op ops ih =>
      obtain ⟨hreply, hnext⟩ := h.perform (hops op (List.mem_cons_self ..))
      obtain ⟨hall, hreplies, hafter⟩ :=
        ih hnext (fun op' h' => hops op' (List.mem_cons_of_mem op h')) hadmits.2
      refine ⟨⟨(h.admits_iff op).mpr hadmits.1, hall⟩, ?_, hafter⟩
      rw [Model.replies, Flat.replies, hreply, hreplies]

end Model

end Simulation

section Results

variable {q : ShimParams} {X : Prop} {m : Model q.engine}

theorem plain_script_spec {f : Flat q.engine} {ops : List (ℕ × Op)} (h : m.Flattens f)
    (hplain : ∀ op ∈ ops, op.2.Plain) (hops : f.AdmitsAll (ops.map Prod.snd))
    (hp : ∀ op ∈ ops, X ∨ 7 < op.1) :
    Mmio.Triple (bridge q) X (Rest m) (script ops) fun as s =>
      as = f.replies (ops.map Prod.snd) ∧
        (Model.ofShim s).Flattens (f.after (ops.map Prod.snd)) ∧ s.Quiescent := by
  have hmem : ∀ op ∈ ops.map Prod.snd, op.Plain := by
    intro op hop
    obtain ⟨op', hop', rfl⟩ := List.mem_map.mp hop
    exact hplain op' hop'
  obtain ⟨hadmits, hreplies, hafter⟩ := h.replies hmem hops
  apply (script_spec hadmits hp).conseq fun _ h => h
  rintro as s ⟨rfl, hs⟩
  refine ⟨hreplies, ?_, hs.quiescent⟩
  rw [hs.model]
  exact hafter

/-- The cache is transparent to software. Take a shim with nothing pending or
outstanding that stands for a flat memory, either through a coherent cache or with the
cache bypassed, and any script of handshakes, bias writes, bias reads and requests with
any tags that find their address Device-Biased when their turn comes. The script returns
what the flat memory returns, however the processor is paced, and leaves a shim that
stands for the flat memory after the script. In particular it returns the same with the
cache on as with the cache bypassed. -/
theorem cache_transparent {x : Shim.Undefined q} {bus : ℕ → Bus} {t : ℕ}
    (hq : (Shim.run x bus t).Quiescent) {f : Flat q.engine}
    (hf : (Model.ofShim (Shim.run x bus t)).Flattens f) {ops : List (ℕ × Op)}
    (hplain : ∀ op ∈ ops, op.2.Plain) (hops : f.AdmitsAll (ops.map Prod.snd)) (gaps : ℕ → ℕ) :
    ∃ n c, Mmio.run (bridge q) gaps (script ops) (Shim.run x bus t) n = c ∧
      ((∃ as, c.prog = .ret as ∧ as = f.replies (ops.map Prod.snd) ∧
        (Model.ofShim c.device).Flattens (f.after (ops.map Prod.snd)) ∧ c.device.Quiescent) ∨
      c.prog = .exit ∧ ∃ op ∈ ops, op.1 ≤ 7) := by
  obtain ⟨n, c, hrun, hend⟩ :=
    outcome hq (plain_script_spec hf hplain hops (short_or_long ops)) gaps
  exact ⟨n, c, hrun, hend⟩

end Results

section Demonstration

/-- A write, a read of a colliding address, and a handshake for the first address. -/
def plainScript : List (ℕ × Op) :=
  [(8, .write 5 1 7), (8, .read 21 2), (8, .biasWrite 5 true), (8, .handshake false 5 3 0),
    (8, .read 5 4)]

theorem cache_transparent_plainScript :
    ∃ n, (Mmio.run (bridge defaultShim) (fun n => n) (script plainScript)
      (Shim.run powerOnZero (fun _ => Bus.idle) 0) n).prog =
        .ret [.response 1 1 none, .response 3 2 (some 0), .done, .handshake 5 0 3 3,
          .response 3 4 (some 7)] := by
  let f : Flat defaultShim.engine := ⟨fun _ => 0, fun _ => false⟩
  have hf : (Model.ofShim (Shim.run powerOnZero (fun _ => Bus.idle) 0)).Flattens f :=
    ⟨rfl, fun _ => StandsAt.of_invalid fun _ => rfl⟩
  have hplain : ∀ op ∈ plainScript, op.2.Plain := by simp [plainScript, Op.Plain]
  have hadmits : f.AdmitsAll (plainScript.map Prod.snd) :=
    ⟨rfl, rfl, trivial, trivial, rfl, trivial⟩
  obtain ⟨n, c, hrun, ⟨as, hprog, has, _⟩ | ⟨_, op, hop, hpolls⟩⟩ :=
    cache_transparent ⟨rfl, rfl, rfl, fun _ => rfl⟩ hf hplain hadmits fun n => n
  · exact ⟨n, by rw [hrun, hprog, has]; rfl⟩
  · have height : ∀ op ∈ plainScript, op.1 = 8 := by simp [plainScript]
    rw [height op hop] at hpolls
    omega

end Demonstration

end CxlLite.Hps
