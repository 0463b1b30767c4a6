import CxlLite.Hps.Handshake
import CxlLite.Mmio.Passive

/-!
# The diagnostic programs

The diagnostics read registers and write `BIAS_ADDR`. In whatever state they find the
shim, even one that waits for the host forever, they are never held up, they end, and
they leave the shim where it would be without them.
-/

namespace CxlLite.Hps

open Engine Shim

variable {q : ShimParams}

section Programs

/-- A read of any register, or a write to `BIAS_ADDR`. -/
def Harmless : Mmio.Access (BitVec 5) (BitVec 32) → Prop
  | .read _ => True
  | .write r _ => r = addrBiasAddr

/-- `main` of `diag_bias_readonly`, for any addresses: `any_host_biased`, `bi_status` and
`status`. -/
def diagBiasReadonly (addrs : List (BitVec 32)) : Prog (Bool × BitVec 32 × BitVec 32) := do
  let bs ← .sequence (addrs.map biasRead)
  let biStatus ← .read addrBiStatus
  let status ← .read addrStatus
  return (bs.any fun b => b != 0, biStatus, status)

/-- The access of `safe_probe`. -/
def safeProbe : Prog (BitVec 32) := .read addrStatus

theorem biasRead_harmless (addr : BitVec 32) : (biasRead addr).Only Harmless :=
  ⟨rfl, fun _ => ⟨trivial, fun _ => trivial⟩⟩

theorem diagBiasReadonly_harmless (addrs : List (BitVec 32)) :
    (diagBiasReadonly addrs).Only Harmless := by
  apply Mmio.Prog.Only.bind
  · apply Mmio.Prog.Only.sequence
    intro p hp
    obtain ⟨addr, _, rfl⟩ := List.mem_map.mp hp
    exact biasRead_harmless addr
  · intro _
    exact ⟨trivial, fun _ => ⟨trivial, fun _ => trivial⟩⟩

end Programs

section Silence

/-- The states differ in `BIAS_ADDR` at most. -/
def SameButBiasAddr (s s' : Shim.State q) : Prop := ∃ a, s = { s' with biasAddr := a }

/-- A released cycle in which nothing but `BIAS_ADDR` is written. -/
structure Silent (b : Bus) : Prop where
  rstn : b.rstn = true
  writes : ∀ r, r ≠ addrBiasAddr → b.writes r = false

theorem silent_onBus {x : Option (Mmio.Access (BitVec 5) (BitVec 32))}
    (hx : ∀ a, x = some a → Harmless a) : Silent (onBus x) := by
  refine ⟨onBus_rstn x, ?_⟩
  intro r hr
  cases x with
  | none => rfl
  | some a =>
      cases a with
      | read r' => exact Bus.writes_of_no_write rfl r
      | write r' v =>
          obtain rfl : r' = addrBiasAddr := hx _ rfl
          exact writes_onBus hr.symm

variable {s s' : Shim.State q} {b b' : Bus}

/-- The debug port does not matter to the engine while it does not write. -/
theorem edge_of_no_bias_write {e : Engine.State q.engine} {i : Inputs q.engine}
    (hen : i.biasWrEn = false) (a : q.engine.Addr) (d : Bool) :
    e.edge { i with biasAddr := a, biasWrData := d } = e.edge i := by
  have hbias : e.biasNext { i with biasAddr := a, biasWrData := d } = e.biasNext i := by
    cases hf : e.biFlipNow i with
    | true =>
        rw [biasNext_of_flip hf]
        exact biasNext_of_flip (i := { i with biasAddr := a, biasWrData := d }) hf
    | false =>
        rw [biasNext_of_not_flip hf,
          biasNext_of_not_flip (i := { i with biasAddr := a, biasWrData := d }) hf]
        simp only [hen]
        rfl
  rw [Engine.State.edge, Engine.State.edge, hbias]
  rfl

theorem Silent.writes_eq (hb : Silent b) (hb' : Silent b') {r : BitVec 5}
    (hr : r ≠ addrBiasAddr) : b.writes r = b'.writes r := by
  rw [hb.writes r hr, hb'.writes r hr]

/-- Silent cycles keep two states the same apart from `BIAS_ADDR`. -/
theorem SameButBiasAddr.edge (h : SameButBiasAddr s s') (hb : Silent b) (hb' : Silent b') :
    SameButBiasAddr (s.edge b) (s'.edge b') := by
  obtain ⟨a, rfl⟩ := h
  have hinputs : Shim.State.engineInputs { s' with biasAddr := a } b =
      { s'.engineInputs b' with biasAddr := a, biasWrData := b.writeBit } := by
    simp only [Shim.State.engineInputs, Bus.writeAck, Bus.writeBias, Bus.writeBiAck,
      Bus.writeBiRsp, hb.writes_eq hb' (r := addrRespAck) (by decide),
      hb.writes_eq hb' (r := addrBiasSet) (by decide),
      hb.writes_eq hb' (r := addrBiReqAck) (by decide),
      hb.writes_eq hb' (r := addrBiRspSend) (by decide), hb.rstn, hb'.rstn]
  have hready : Shim.State.m2sReady { s' with biasAddr := a } b = s'.m2sReady b' := by
    rw [Shim.State.m2sReady, hinputs]
    rfl
  have hengine : s'.engine.step (Shim.State.engineInputs { s' with biasAddr := a } b) =
      s'.engine.step (s'.engineInputs b') := by
    have hrst : (s'.engineInputs b').rstN = true := hb'.rstn
    have hen : (s'.engineInputs b').biasWrEn = false := hb'.writes _ (by decide)
    rw [hinputs, Engine.State.step, Engine.State.step, hrst]
    exact edge_of_no_bias_write hen _ _
  refine ⟨Shim.State.biasAddrNext { s' with biasAddr := a } b, ?_⟩
  simp only [Shim.State.edge, Shim.State.reqAddrNext, Shim.State.reqWdataNext,
    Shim.State.cacheBypassEnNext, Shim.State.pendingValidNext, Shim.State.pendingIsWriteNext,
    Shim.State.pendingTagNext, Shim.State.seenRequestNext, Shim.State.seenResponseNext,
    Bus.writeFire, Bus.writeBypass, hb.writes addrReqAddr (by decide),
    hb.writes addrReqWdata (by decide), hb.writes addrReqFire (by decide),
    hb.writes addrCacheBypass (by decide), hb'.writes addrReqAddr (by decide),
    hb'.writes addrReqWdata (by decide), hb'.writes addrReqFire (by decide),
    hb'.writes addrCacheBypass (by decide), hready, hengine, Bool.false_and, Bool.false_eq_true,
    if_false]

/-- Without a bias write or a response of the host the bias table stays. -/
theorem Silent.bias_edge (hb : Silent b) : (s.edge b).engine.bias = s.engine.bias := by
  have hflip : s.engine.biFlipNow (s.engineInputs b) = false := by
    have hrsp : (s.engineInputs b).biRspValid = false := hb.writes _ (by decide)
    rw [Engine.State.biFlipNow, hrsp, Bool.and_false]
  have hen : (s.engineInputs b).biasWrEn = false := hb.writes _ (by decide)
  rw [Shim.State.edge_engine hb.rstn]
  change s.engine.biasNext (s.engineInputs b) = s.engine.bias
  rw [biasNext_of_not_flip hflip, hen]
  rfl

/-- Harmless accesses go unnoticed. -/
theorem unnoticed : Mmio.Unnoticed (bridge q) Harmless SameButBiasAddr where
  idle s s' h := by
    have hnone : Silent (onBus none) := silent_onBus fun _ ha => by cases ha
    rw [bridge_cycle, bridge_cycle]
    exact h.edge hnone hnone
  access x s s' hx h := by
    have hnone : Silent (onBus none) := silent_onBus fun _ ha => by cases ha
    have hsome : Silent (onBus (some x)) := by
      apply silent_onBus
      rintro a ⟨⟩
      exact hx
    rw [bridge_cycle, bridge_cycle]
    exact h.edge hsome hnone
  ready x s hx := by
    cases x with
    | read r => exact bridge_ready_read r
    | write r v =>
        obtain rfl : r = addrBiasAddr := hx
        exact bridge_ready_write fun hfire => absurd hfire (by decide)

end Silence

section Diagnosis

variable {X : Prop} {β : BiasTable q.engine}

/-- A `bias_read` returns the bias, in any state of the shim. -/
theorem biasRead_anywhere (addr : BitVec 32) :
    Mmio.Triple (bridge q) X (fun s : Shim.State q => s.engine.bias = β) (biasRead addr)
      fun v s => v = biasWord (β (addr.extractLsb' 0 q.addrW)) ∧ s.engine.bias = β := by
  have hsilent : ∀ {x} {s : Shim.State q}, (∀ a, x = some a → Harmless a) → s.engine.bias = β →
      ((bridge q).cycle x s).engine.bias = β := by
    intro x s hx hs
    rw [bridge_cycle, (silent_onBus hx).bias_edge, hs]
  have hwrite : Mmio.Triple (bridge q) X (fun s : Shim.State q => s.engine.bias = β)
      (.write addrBiasAddr addr)
      fun _ s => s.engine.bias = β ∧ s.biasAddr = addr.extractLsb' 0 q.addrW := by
    apply Mmio.Triple.write
    · intro s hs
      exact hsilent (fun _ ha => by cases ha) hs
    · intro s _
      exact bridge_ready_write fun hfire => absurd hfire (by decide)
    · intro s hs
      refine ⟨hsilent ?_ hs, by rw [bridge_cycle]; rfl⟩
      rintro a ⟨⟩
      rfl
  apply hwrite.bind
  intro _
  have hread : Mmio.Triple (bridge q) X
      (fun s : Shim.State q => s.engine.bias = β ∧ s.biasAddr = addr.extractLsb' 0 q.addrW)
      (.read addrBiasGet)
      fun v s => v &&& 1 = biasWord (β (addr.extractLsb' 0 q.addrW)) ∧ s.engine.bias = β := by
    apply Mmio.Triple.read
    · rintro s ⟨hs, ha⟩
      refine ⟨hsilent (fun _ ha => by cases ha) hs, ?_⟩
      rw [bridge_cycle]
      exact ha
    · intro s _
      exact bridge_ready_read _
    · rintro s ⟨hs, ha⟩
      refine ⟨biasGet_and ha (congrFun hs _), hsilent ?_ hs⟩
      rintro a ⟨⟩
      trivial
  apply hread.bind
  intro v
  apply Mmio.Triple.of_pure
  intro hv
  apply Mmio.Triple.ret
  intro s hs
  exact ⟨hv, hs⟩

theorem biasReads_anywhere (addrs : List (BitVec 32)) :
    Mmio.Triple (bridge q) X (fun s : Shim.State q => s.engine.bias = β)
      (.sequence (addrs.map biasRead)) fun bs s =>
        bs = addrs.map (fun addr => biasWord (β (addr.extractLsb' 0 q.addrW))) ∧
          s.engine.bias = β := by
  refine (Mmio.Triple.sequence (I := fun l bs s => ∃ pre, pre ++ l = addrs ∧
    bs = pre.map (fun addr => biasWord (β (addr.extractLsb' 0 q.addrW))) ∧
      s.engine.bias = β) ?_ addrs []).conseq ?_ ?_
  · rintro addr l bs s ⟨pre, rfl, rfl, hs⟩
    apply Mmio.wp_mono _ (biasRead_anywhere addr s hs)
    rintro v s' ⟨rfl, hs'⟩
    exact ⟨pre ++ [addr], by simp, by simp, hs'⟩
  · intro s hs
    exact ⟨[], rfl, rfl, hs⟩
  · rintro bs s ⟨pre, hpre, hbs, hs⟩
    rw [List.append_nil] at hpre
    subst hpre
    exact ⟨hbs, hs⟩

theorem diagBiasReadonly_anywhere (addrs : List (BitVec 32)) :
    Mmio.Triple (bridge q) X (fun s : Shim.State q => s.engine.bias = β)
      (diagBiasReadonly addrs) fun v _ =>
        v.1 = addrs.any fun addr => β (addr.extractLsb' 0 q.addrW) := by
  have hread : ∀ r, Mmio.Triple (bridge q) X (fun _ : Shim.State q => True) (.read r)
      fun _ _ => True := by
    intro r
    apply Mmio.Triple.read
    · exact fun _ _ => trivial
    · exact fun _ _ => bridge_ready_read r
    · exact fun _ _ => trivial
  have hreads := biasReads_anywhere (X := X) (β := β) addrs
  apply (hreads.conseq (fun _ h => h) fun _ _ h => (⟨h.1, trivial⟩ : _ ∧ True)).bind
  intro bs
  apply Mmio.Triple.of_pure
  rintro rfl
  apply (hread _).bind
  intro biStatus
  apply (hread _).bind
  intro status
  apply Mmio.Triple.ret
  intro s _
  change (addrs.map fun addr => biasWord (β (addr.extractLsb' 0 q.addrW))).any (fun b => b != 0) = _
  rw [List.any_map]
  congr 1
  funext addr
  cases h : β (addr.extractLsb' 0 q.addrW) <;> simp [biasWord, h]

end Diagnosis

section Results

/-- Observing is harmless. Take any state of the shim, reachable or not, pending,
stalled or waiting for the host, and any program that makes harmless accesses only. It
ends, and at every time the shim is where the same number of idle cycles would have
taken it, apart from `BIAS_ADDR`. -/
theorem observer_unnoticed {α : Type} {prog : Prog α} (hprog : prog.Only Harmless)
    (s : Shim.State q) (gaps : ℕ → ℕ) :
    (∃ t, (∃ a, (Mmio.run (bridge q) gaps prog s t).prog = .ret a) ∨
        (Mmio.run (bridge q) gaps prog s t).prog = .exit) ∧
      ∀ t, ∃ a, (Mmio.run (bridge q) gaps prog s t).device =
        { ((bridge q).cycle none)^[t] s with biasAddr := a } :=
  ⟨unnoticed.ends gaps hprog s, unnoticed.run gaps hprog ⟨s.biasAddr, rfl⟩⟩

/-- The bias diagnostic is exact and leaves no trace, in any state of the shim: it
returns whether one of its addresses is Host-Biased, also when a request for such an
address is stalled, and only `BIAS_ADDR` tells that it has run. -/
theorem diag_bias_readonly (addrs : List (BitVec 32)) (s : Shim.State q) (gaps : ℕ → ℕ) :
    ∃ t v, (Mmio.run (bridge q) gaps (diagBiasReadonly addrs) s t).prog = .ret v ∧
      (v.1 = addrs.any fun addr => s.engine.bias (addr.extractLsb' 0 q.addrW)) ∧
      ∃ a, (Mmio.run (bridge q) gaps (diagBiasReadonly addrs) s t).device =
        { ((bridge q).cycle none)^[t] s with biasAddr := a } := by
  obtain ⟨t, ⟨v, hret, hv⟩ | ⟨_, hfalse⟩⟩ :=
    (diagBiasReadonly_anywhere (X := False) (β := s.engine.bias) addrs).run rfl gaps
  · exact ⟨t, v, hret, hv, unnoticed.run gaps (diagBiasReadonly_harmless addrs) ⟨_, rfl⟩ t⟩
  · exact hfalse.elim

end Results

section Demonstration

/-- A read of a Host-Biased address, which waits for the Back-Invalidate handshake. -/
def snoopedBus : ℕ → Bus :=
  script [(addrBiasAddr, 5), (addrBiasSet, 1), (addrReqAddr, 5), (addrReqFire, 32)]

/-- Neither the bias diagnostic nor the probe of the status register disturbs a request
that waits for the host. -/
theorem observer_unnoticed_snooped :
    (Shim.run powerOnZero snoopedBus 5).pendingValid = true ∧
      (Shim.run powerOnZero snoopedBus 5).engine.biState = .req ∧
      (∃ a, (Mmio.run (bridge defaultShim) (fun _ => 2) (diagBiasReadonly [5, 6])
        (Shim.run powerOnZero snoopedBus 5) 20).device =
          { ((bridge defaultShim).cycle none)^[20] (Shim.run powerOnZero snoopedBus 5) with
            biasAddr := a }) ∧
      ∃ a, (Mmio.run (bridge defaultShim) (fun _ => 2) safeProbe
        (Shim.run powerOnZero snoopedBus 5) 5).device =
          { ((bridge defaultShim).cycle none)^[5] (Shim.run powerOnZero snoopedBus 5) with
            biasAddr := a } := by
  have hprobe : safeProbe.Only Harmless := ⟨trivial, fun _ => trivial⟩
  refine ⟨by decide, by decide, ?_, (observer_unnoticed hprobe _ fun _ => 2).2 5⟩
  exact (observer_unnoticed (diagBiasReadonly_harmless [5, 6]) _ fun _ => 2).2 20

end Demonstration

end CxlLite.Hps
