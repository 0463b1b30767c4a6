import CxlLite.Hps.Handshake

/-!
# Host programs refine the sequential model

A script is a list of calls of the host routines. On a shim at rest it returns,
call by call, what the sequential model returns, whatever the processor does
between its register accesses.
-/

namespace CxlLite.Hps

open Shim

/-- A call of a host routine. -/
inductive Op where
  | write (addr tag wdata : BitVec 32)
  | read (addr tag : BitVec 32)
  | handshake (isWrite : Bool) (addr tag wdata : BitVec 32)
  | biasWrite (addr : BitVec 32) (hostBiased : Bool)
  | biasRead (addr : BitVec 32)
  | bypass (v : BitVec 32)
  | counters

/-- What a call returns. -/
inductive Reply where
  | response (status tag : BitVec 32) (rdata : Option (BitVec 32))
  | handshake (biAddr bias status tag : BitVec 32)
  | word (v : BitVec 32)
  | counters (hits misses : BitVec 32)
  | done
  deriving DecidableEq, Repr

/-- The call as a program over the registers. -/
def Op.run (polls : ℕ) : Op → Prog Reply
  | .write addr tag wdata => do
      let v ← checkedWrite polls ⟨true, addr, tag, wdata⟩
      return .response v.1 v.2 none
  | .read addr tag => do
      let v ← checkedRead polls ⟨false, addr, tag, 0⟩
      return .response v.1 v.2.1 (some v.2.2)
  | .handshake isWrite addr tag wdata => do
      let v ← Hps.handshake polls ⟨isWrite, addr, tag, wdata⟩
      return .handshake v.1 v.2.1 v.2.2.1 v.2.2.2
  | .biasWrite addr hostBiased => do
      Hps.biasWrite addr hostBiased
      return .done
  | .biasRead addr => do
      let v ← Hps.biasRead addr
      return .word v
  | .bypass v => do
      .write addrCacheBypass v
      return .done
  | .counters => do
      let h ← hits
      let m ← misses
      return .counters h m

/-- A script, with the number of polls that the timeout of each call leaves time for. -/
def script (ops : List (ℕ × Op)) : Prog (List Reply) :=
  .sequence (ops.map fun op => op.2.run op.1)

namespace Model

variable {q : ShimParams} (m : Model q.engine)

/-- A call in the sequential model. -/
def perform : Op → Reply × Model q.engine
  | .write addr tag wdata =>
      let r : Request := ⟨true, addr, tag, wdata⟩
      (.response r.statusWord ((r.tagBits q).setWidth 32) none, m.access (r.access q))
  | .read addr tag =>
      let r : Request := ⟨false, addr, tag, 0⟩
      (.response r.statusWord ((r.tagBits q).setWidth 32)
        (some ((m.answer (r.addrBits q)).setWidth 32)), m.access (r.access q))
  | .handshake isWrite addr tag wdata =>
      let r : Request := ⟨isWrite, addr, tag, wdata⟩
      (.handshake ((r.addrBits q).setWidth 32) 0 r.statusWord ((r.tagBits q).setWidth 32),
        (m.setBias (r.addrBits q) false).access (r.access q))
  | .biasWrite addr hostBiased => (.done, m.setBias (addr.extractLsb' 0 q.addrW) hostBiased)
  | .biasRead addr => (.word (biasWord (m.bias (addr.extractLsb' 0 q.addrW))), m)
  | .bypass v => (.done, m.setBypass (v.getLsbD 0))
  | .counters => (.counters m.hits m.misses, m)

/-- A plain request needs a Device-Biased address: nobody answers a handshake for it. -/
def Admits : Op → Prop
  | .write addr _ _ | .read addr _ => m.bias (addr.extractLsb' 0 q.addrW) = false
  | _ => True

/-- Every call of the list is admitted when its turn comes. -/
def AdmitsAll (m : Model q.engine) : List Op → Prop
  | [] => True
  | op :: ops => m.Admits op ∧ (m.perform op).2.AdmitsAll ops

/-- The replies of the sequential model. -/
def replies (m : Model q.engine) : List Op → List Reply
  | [] => []
  | op :: ops => (m.perform op).1 :: (m.perform op).2.replies ops

/-- The sequential model after a list of calls. -/
def after (m : Model q.engine) (ops : List Op) : Model q.engine :=
  ops.foldl (fun m op => (m.perform op).2) m

end Model

section Refinement

variable {q : ShimParams} {X : Prop} {m : Model q.engine} {polls : ℕ}

/-- A call whose result is only put into a reply. -/
theorem reply_spec {α : Type} {prog : Prog α} {v : α} {m' : Model q.engine} {f : α → Reply}
    (h : Mmio.Triple (bridge q) X (Rest m) prog fun w s => w = v ∧ Rest m' s) :
    Mmio.Triple (bridge q) X (Rest m) (prog.bind fun w => .ret (f w))
      fun a s => a = f v ∧ Rest m' s := by
  apply h.bind
  intro w
  apply Mmio.Triple.of_pure
  rintro rfl
  apply Mmio.Triple.ret
  intro s hs
  exact ⟨rfl, hs⟩

theorem done_spec {prog : Prog PUnit} {m' : Model q.engine}
    (h : Mmio.Triple (bridge q) X (Rest m) prog fun _ => Rest m') :
    Mmio.Triple (bridge q) X (Rest m) (prog.bind fun _ => .ret Reply.done)
      fun a s => a = .done ∧ Rest m' s := by
  apply h.bind
  intro _
  apply Mmio.Triple.ret
  intro s hs
  exact ⟨rfl, hs⟩

/-- One call takes a resting shim where the model goes, with the model's reply. -/
theorem Op.run_spec {op : Op} (hops : m.Admits op) (hp : X ∨ 7 < polls) :
    Mmio.Triple (bridge q) X (Rest m) (op.run polls) fun a s =>
      a = (m.perform op).1 ∧ Rest (m.perform op).2 s := by
  cases op with
  | write addr tag wdata => exact reply_spec (checkedWrite_spec (r := ⟨true, addr, tag, wdata⟩) hops hp)
  | read addr tag => exact reply_spec (checkedRead_spec (r := ⟨false, addr, tag, 0⟩) rfl hops hp)
  | handshake isWrite addr tag wdata => exact reply_spec (handshake_spec hp)
  | biasWrite addr hostBiased => exact done_spec (biasWrite_spec addr hostBiased)
  | biasRead addr => exact reply_spec (biasRead_spec addr)
  | bypass v => exact done_spec (bypass_spec v)
  | counters =>
      apply hits_spec.bind
      intro h
      apply Mmio.Triple.of_pure
      rintro rfl
      exact reply_spec misses_spec

/-- A script that the model admits returns the replies of the model. -/
theorem script_spec {ops : List (ℕ × Op)} (hops : m.AdmitsAll (ops.map Prod.snd))
    (hp : ∀ op ∈ ops, X ∨ 7 < op.1) :
    Mmio.Triple (bridge q) X (Rest m) (script ops) fun as s =>
      as = m.replies (ops.map Prod.snd) ∧ Rest (m.after (ops.map Prod.snd)) s := by
  refine (Mmio.Triple.sequence (I := fun l as s => ∃ m' : Model q.engine, Rest m' s ∧
    m'.AdmitsAll (l.map Prod.snd) ∧ (∀ op ∈ l, X ∨ 7 < op.1) ∧
      as ++ m'.replies (l.map Prod.snd) = m.replies (ops.map Prod.snd) ∧
        m'.after (l.map Prod.snd) = m.after (ops.map Prod.snd)) ?_ ops []).conseq ?_ ?_
  · rintro op l as s ⟨m', hs, ⟨hop, hl⟩, hpolls, has, hm'⟩
    apply Mmio.wp_mono _ (Op.run_spec hop (hpolls op (List.mem_cons_self ..)) s hs)
    rintro a s' ⟨rfl, hs'⟩
    refine ⟨_, hs', hl, fun op' h => hpolls op' (List.mem_cons_of_mem _ h), ?_, hm'⟩
    rw [List.append_assoc]
    exact has
  · intro s hs
    exact ⟨m, hs, hops, hp, rfl, rfl⟩
  · rintro as s ⟨m', hs, _, _, has, hm'⟩
    rw [List.map_nil, Model.replies, List.append_nil, List.nil_append] at has
    obtain rfl : m' = m.after (ops.map Prod.snd) := hm'
    exact ⟨has, hs⟩

/-- Every timeout of the script is long enough, unless one is not. -/
theorem short_or_long (ops : List (ℕ × Op)) : ∀ op ∈ ops, (∃ op ∈ ops, op.1 ≤ 7) ∨ 7 < op.1 := by
  intro op hop
  rcases Nat.lt_or_ge 7 op.1 with h | h
  · exact Or.inr h
  · exact Or.inl ⟨op, hop, h⟩

/-- The host programs refine the sequential model. Take any state of the shim in which
nothing is pending or outstanding, any script whose plain requests find their address
Device-Biased in the model when their turn comes, and any number of idle cycles before
each register access. The script returns the replies of the model, call by call, and
leaves a resting shim that stands for the model after the script. It exits only if some
timeout leaves no time for eight polls. -/
theorem script_refines {x : Shim.Undefined q} {bus : ℕ → Bus} {t : ℕ}
    (hq : (Shim.run x bus t).Quiescent) {ops : List (ℕ × Op)}
    (hops : (Model.ofShim (Shim.run x bus t)).AdmitsAll (ops.map Prod.snd)) (gaps : ℕ → ℕ) :
    ∃ n c, Mmio.run (bridge q) gaps (script ops) (Shim.run x bus t) n = c ∧
      ((c.prog = .ret ((Model.ofShim (Shim.run x bus t)).replies (ops.map Prod.snd)) ∧
        Rest ((Model.ofShim (Shim.run x bus t)).after (ops.map Prod.snd)) c.device) ∨
      c.prog = .exit ∧ ∃ op ∈ ops, op.1 ≤ 7) := by
  obtain ⟨n, c, hrun, ⟨as, hprog, rfl, hrest⟩ | hexit⟩ :=
    outcome hq (script_spec hops (short_or_long ops)) gaps
  · exact ⟨n, c, hrun, Or.inl ⟨hprog, hrest⟩⟩
  · exact ⟨n, c, hrun, Or.inr hexit⟩

end Refinement

section Demonstration

/-- A write, a read of a colliding address, and a handshake for the first address. -/
def shortScript : List (ℕ × Op) :=
  [(8, .write 5 1 7), (8, .read 21 2), (8, .biasWrite 5 true), (8, .handshake false 5 3 0)]

theorem script_refines_shortScript :
    ∃ n c, Mmio.run (bridge defaultShim) (fun n => n) (script shortScript)
        (Shim.run powerOnZero (fun _ => Bus.idle) 0) n = c ∧
      ((c.prog = .ret ((Model.ofShim (Shim.run powerOnZero (fun _ => Bus.idle) 0)).replies
          (shortScript.map Prod.snd)) ∧
        Rest ((Model.ofShim (Shim.run powerOnZero (fun _ => Bus.idle) 0)).after
          (shortScript.map Prod.snd)) c.device) ∨
      c.prog = .exit ∧ ∃ op ∈ shortScript, op.1 ≤ 7) := by
  have hops : (Model.ofShim (Shim.run powerOnZero (fun _ => Bus.idle) 0)).AdmitsAll
      (shortScript.map Prod.snd) := ⟨rfl, rfl, trivial, trivial, trivial⟩
  exact script_refines ⟨rfl, rfl, rfl, fun _ => rfl⟩ hops _

end Demonstration

end CxlLite.Hps
