import CxlLite.Hps.Routines

/-!
# Bias and the Back-Invalidate handshake

A request for a Host-Biased address waits while software acknowledges the
Back-Invalidate request and answers it. The answer makes the address
Device-Biased, and the request goes on as if it had been fired then.
-/

namespace CxlLite.Hps

open Engine Shim

variable {q : ShimParams} {X : Prop} {m : Model q.engine} {r : Request} {d : q.engine.Data} {c : ℕ}

section Control

theorem rest_edge_of {s : Shim.State q} {b : Bus} (h : Rest m s) (hrst : b.rstn = true)
    (hfire : b.writeFire = false) :
    Rest { m with
      bias := s.engine.biasNext (s.engineInputs b)
      bypass := s.cacheBypassEnNext b } (s.edge b) where
  quiescent := h.quiescent.edge h.offer hrst hfire
  offer := edge_offer hrst h.offer
  model := by rw [Model.ofShim_quiet hrst h.not_flush h.not_accept, h.model]

theorem Rest.not_flip {s : Shim.State q} {b : Bus} (h : Rest m s) :
    s.engine.biFlipNow (s.engineInputs b) = false := by
  simp [Engine.State.biFlipNow, h.quiescent.handshake]

theorem biasAddr_spec (addr : BitVec 32) :
    Mmio.Triple (bridge q) X (Rest m) (.write addrBiasAddr addr)
      fun _ s => Rest m s ∧ s.biasAddr = addr.extractLsb' 0 q.addrW := by
  apply Mmio.Triple.write rest_stable
  · intro s hs
    exact bridge_ready_write fun _ => hs.quiescent.pending
  · intro s hs
    refine ⟨rest_cycle hs (passive_write (by decide)), ?_⟩
    rw [bridge_cycle]
    rfl

/-- `BIAS_SET` sets the bias of the address in `BIAS_ADDR`. -/
theorem biasSet_spec (a : q.engine.Addr) (hostBiased : Bool) :
    Mmio.Triple (bridge q) X (fun s => Rest m s ∧ s.biasAddr = a)
      (.write addrBiasSet (if hostBiased then 1 else 0))
      fun _ => Rest (m.setBias a hostBiased) := by
  apply Mmio.Triple.write
  · rintro s ⟨hs, ha⟩
    refine ⟨rest_stable s hs, ?_⟩
    rw [bridge_cycle]
    exact ha
  · rintro s ⟨hs, _⟩
    exact bridge_ready_write fun _ => hs.quiescent.pending
  · rintro s ⟨hs, ha⟩
    have hbit : (if hostBiased then (1 : BitVec 32) else 0).getLsbD 0 = hostBiased := by
      cases hostBiased <;> rfl
    have hnext := rest_edge_of (b := onBus (some (.write addrBiasSet
      (if hostBiased then 1 else 0)))) hs rfl rfl
    rw [biasNext_of_not_flip hs.not_flip] at hnext
    rw [bridge_cycle, Model.setBias, ← ha, ← hs.model]
    rw [← hs.model] at hnext
    convert hnext using 2
    · exact congrArg (Function.update s.engine.bias s.biasAddr) hbit.symm
    · rfl

/-- `bias_write` sets the bias of its address, and of no other. -/
theorem biasWrite_spec (addr : BitVec 32) (hostBiased : Bool) :
    Mmio.Triple (bridge q) X (Rest m) (biasWrite addr hostBiased)
      fun _ => Rest (m.setBias (addr.extractLsb' 0 q.addrW) hostBiased) := by
  apply (biasAddr_spec addr).bind
  intro _
  exact biasSet_spec _ hostBiased

/-- `CACHE_BYPASS` takes the low bit of what is written. -/
theorem bypass_spec (v : BitVec 32) :
    Mmio.Triple (bridge q) X (Rest m) (.write addrCacheBypass v)
      fun _ => Rest (m.setBypass (v.getLsbD 0)) := by
  apply Mmio.Triple.write rest_stable
  · intro s hs
    exact bridge_ready_write fun _ => hs.quiescent.pending
  · intro s hs
    have hnext := rest_edge_of (b := onBus (some (.write addrCacheBypass v))) hs rfl rfl
    rw [biasNext_of_not_flip hs.not_flip] at hnext
    rw [bridge_cycle, Model.setBypass, ← hs.model]
    rw [← hs.model] at hnext
    exact hnext

/-- The value that `bias_read` returns for a bias bit. -/
def biasWord (hostBiased : Bool) : BitVec 32 := if hostBiased then 1 else 0

theorem biasGet_and {s : Shim.State q} {a : q.engine.Addr} {v : Bool} (ha : s.biasAddr = a)
    (hv : s.engine.bias a = v) : s.readReg addrBiasGet &&& 1 = biasWord v := by
  have hread : s.readReg addrBiasGet = 0#31 ++ BitVec.ofBool (s.engine.bias s.biasAddr) := rfl
  rw [hread, ha, hv]
  cases v <;> rfl

theorem biasRead_spec (addr : BitVec 32) :
    Mmio.Triple (bridge q) X (Rest m) (biasRead addr) fun v s =>
      v = biasWord (m.bias (addr.extractLsb' 0 q.addrW)) ∧ Rest m s := by
  apply (biasAddr_spec addr).bind
  intro _
  have hread : Mmio.Triple (bridge q) X
      (fun s : Shim.State q => Rest m s ∧ s.biasAddr = addr.extractLsb' 0 q.addrW)
      (.read addrBiasGet) fun v s =>
        v &&& 1 = biasWord (m.bias (addr.extractLsb' 0 q.addrW)) ∧ Rest m s := by
    apply Mmio.Triple.read
    · rintro s ⟨hs, ha⟩
      refine ⟨rest_stable s hs, ?_⟩
      rw [bridge_cycle]
      exact ha
    · rintro s _
      exact bridge_ready_read _
    · rintro s ⟨hs, ha⟩
      refine ⟨biasGet_and ha ?_, rest_cycle hs (passive_read _)⟩
      rw [← hs.model]
      rfl
  apply hread.bind
  intro v
  apply Mmio.Triple.of_pure
  intro hv
  apply Mmio.Triple.ret
  intro s hs
  exact ⟨hv, hs⟩

end Control

section Snooping

/-- The request waits for the Back-Invalidate handshake, which has come to `phase`. -/
structure Snooping (r : Request) (m : Model q.engine) (phase : BiState)
    (s : Shim.State q) : Prop extends Pending r s where
  hostBiased : m.bias (r.addrBits q) = true
  handshake : s.engine.biState = phase
  eviction : s.engine.flushState = .idle
  model : Model.ofShim s = m

variable {phase : BiState} {s : Shim.State q} {b : Bus}

theorem Fired.snooping (h : Fired r m s) (hbias : m.bias (r.addrBits q) = true) :
    Snooping r m .idle s := ⟨h.toPending, hbias, h.handshake, h.eviction, h.model⟩

theorem Snooping.bias (h : Snooping r m phase s) : s.engine.bias s.reqAddr = true := by
  rw [h.addr]
  exact (congrArg (fun m => m.bias (r.addrBits q)) h.model).trans h.hostBiased

theorem Snooping.not_ready (h : Snooping r m phase s) : s.m2sReady b = false :=
  not_ready_of_bias (i := s.engineInputs b) h.bias

/-- A snooped request stays pending, and nothing is evicted for it. -/
theorem Snooping.pending_edge (h : Snooping r m phase s) (hb : Undisturbing b) :
    Pending r (s.edge b) ∧ (s.edge b).engine.flushState = .idle := by
  have hwant : s.engine.wantFlush (s.engineInputs b) = false := by
    have hquery : s.engine.biasQueryRdData (s.engineInputs b) = true := h.bias
    simp [Engine.State.wantFlush, hquery]
  refine ⟨h.toPending.edge hb h.not_ready, ?_⟩
  rw [Shim.State.edge_engine hb.rstn]
  simp [Engine.State.edge, Engine.State.flushStateNext, h.eviction, hwant]

theorem Snooping.edge (h : Snooping r m phase s) (hb : Undisturbing b)
    (hflip : s.engine.biFlipNow (s.engineInputs b) = false) :
    Snooping r m (s.engine.biStateNext (s.engineInputs b)) (s.edge b) := by
  obtain ⟨hpend, hflush⟩ := h.pending_edge hb
  have haccept : s.accepting b = false := by simp [Shim.State.accepting, h.not_ready]
  refine ⟨hpend, h.hostBiased, ?_, hflush, ?_⟩
  · rw [Shim.State.edge_engine hb.rstn]
    rfl
  · rw [Model.ofShim_idle ⟨hb.rstn, hb.bias, hb.bypass, hflip⟩ (not_flush_of_idle h.eviction)
      haccept, h.model]

/-- A cycle without the host's acknowledge or answer. The first one starts the handshake. -/
theorem Snooping.edge_wait (h : Snooping r m phase s) (hb : Undisturbing b)
    (hack : b.writeBiAck = false) (hrsp : b.writeBiRsp = false) :
    Snooping r m (if phase = .idle then .req else phase) (s.edge b) := by
  have hready : (s.engineInputs b).biReqReady = false := hack
  have hvalid : (s.engineInputs b).biRspValid = false := hrsp
  have hnext := h.edge hb (by simp [Engine.State.biFlipNow, hvalid])
  have hquery : s.engine.biasQueryRdData (s.engineInputs b) = true := h.bias
  have hm2s : (s.engineInputs b).m2sValid = true := h.valid
  have hphase : s.engine.biStateNext (s.engineInputs b) =
      if phase = .idle then .req else phase := by
    have hwant : s.engine.biState = .idle → s.engine.wantBi (s.engineInputs b) = true := by
      intro hidle
      simp [Engine.State.wantBi, hidle, hquery, hm2s]
    rw [Engine.State.biStateNext]
    cases hs : s.engine.biState <;> simp [← h.handshake, hs, hready, hvalid, hwant]
  rwa [hphase] at hnext

/-- The acknowledge of the host is taken. -/
theorem Snooping.edge_ack (h : Snooping r m .req s) (hb : Undisturbing b)
    (hack : b.writeBiAck = true) : Snooping r m .waitRsp (s.edge b) := by
  have hready : (s.engineInputs b).biReqReady = true := hack
  have hnext := h.edge hb (by simp [Engine.State.biFlipNow, h.handshake])
  have hphase : s.engine.biStateNext (s.engineInputs b) = .waitRsp := by
    simp [Engine.State.biStateNext, Engine.State.biReqValid, h.handshake, hready]
  rwa [hphase] at hnext

/-- The answer of the host makes the address Device-Biased. -/
theorem Snooping.edge_rsp (h : Snooping r m .waitRsp s) (hb : Undisturbing b)
    (hrsp : b.writeBiRsp = true) : Fired r (m.setBias (r.addrBits q) false) (s.edge b) := by
  obtain ⟨hpend, hflush⟩ := h.pending_edge hb
  have hvalid : (s.engineInputs b).biRspValid = true := hrsp
  have hflip : s.engine.biFlipNow (s.engineInputs b) = true := by
    simp [Engine.State.biFlipNow, h.handshake, hvalid]
  have haccept : s.accepting b = false := by simp [Shim.State.accepting, h.not_ready]
  have hbypass : s.cacheBypassEnNext b = s.cacheBypassEn := by
    simp [Shim.State.cacheBypassEnNext, hb.bypass]
  refine ⟨hpend, ?_, hflush, ?_⟩
  · rw [Shim.State.edge_engine hb.rstn]
    simp [Engine.State.edge, Engine.State.biStateNext, h.handshake, hvalid]
  · rw [Model.ofShim_quiet hb.rstn (not_flush_of_idle h.eviction) haccept, biasNext_of_flip hflip,
      hbypass, ← h.model, Model.setBias, ← h.addr]
    rfl

end Snooping

section Routines

/-- Until the host acknowledges and answers it, a snooped request waits. -/
theorem snooping_cycle {x : Option (Mmio.Access (BitVec 5) (BitVec 32))} {phase : BiState}
    {s : Shim.State q} (h : Snooping r m phase s) (hx : (onBus x).avsWrite = false) :
    Snooping r m (if phase = .idle then .req else phase) ((bridge q).cycle x s) := by
  have hno := Bus.writes_of_no_write hx
  rw [bridge_cycle]
  exact h.edge_wait (undisturbing_of_no_write (onBus_rstn x) hx) (hno _) (hno _)

theorem snooping_stable {phase : BiState} (h : phase ≠ .idle) :
    (bridge q).Stable (Snooping r m phase) := by
  intro s hs
  have hnext := snooping_cycle (x := none) hs rfl
  rwa [if_neg h] at hnext

theorem biStatusPending_iff (s : Shim.State q) :
    biStatusPending (s.readReg addrBiStatus) = s.engine.biReqValid := by
  rw [Shim.State.readReg_biStatus]
  cases s.engine.biActive <;> cases s.engine.biReqValid <;> rfl

/-- A fired request for a Host-Biased address raises the Back-Invalidate request
in the next cycle. -/
theorem pollBiStatus_spec (hbias : m.bias (r.addrBits q) = true) {polls : ℕ}
    (hp : X ∨ 1 < polls) :
    Mmio.Triple (bridge q) X (Fired r m) (pollBiStatus polls) fun _ => Snooping r m .req := by
  have hcycle : ∀ x n (s : Shim.State q), (onBus x).avsWrite = false →
      (n = 1 ∧ Snooping r m .idle s ∨ Snooping r m .req s) →
      Snooping r m .req ((bridge q).cycle x s) := by
    rintro x n s hx (⟨_, hs⟩ | hs)
    · exact snooping_cycle hs hx
    · exact snooping_cycle hs hx
  have hpoll : Mmio.Triple (bridge q) X
      (fun s : Shim.State q => 1 = 1 ∧ Snooping r m .idle s ∨ Snooping r m .req s)
      (pollBiStatus polls) fun _ => Snooping r m .req := by
    apply Mmio.Triple.poll
      (I := fun n (s : Shim.State q) => n = 1 ∧ Snooping r m .idle s ∨ Snooping r m .req s)
      _ _ _ _ hp
    · intro n s h
      exact Or.inr (hcycle none n s rfl h)
    · intro n s _
      exact bridge_ready_read _
    · rintro n s (⟨rfl, hs⟩ | hs) hfail
      · exact ⟨Nat.one_pos, Or.inr (snooping_cycle hs rfl)⟩
      · rw [bridge_data, biStatusPending_iff, Engine.State.biReqValid, hs.handshake] at hfail
        cases hfail
    · intro n s h _
      exact hcycle _ n s rfl h
  apply hpoll.conseq _ fun _ _ h => h
  intro s hs
  exact Or.inl ⟨rfl, hs.snooping hbias⟩

theorem biReqAddr_spec :
    Mmio.Triple (bridge q) X (Snooping r m .req) (.read addrBiReqAddr) fun v s =>
      v = (r.addrBits q).setWidth 32 ∧ Snooping r m .req s := by
  apply Mmio.Triple.read (snooping_stable (by decide))
  · intro s _
    exact bridge_ready_read _
  · intro s hs
    refine ⟨?_, snooping_cycle hs rfl⟩
    rw [← hs.addr]
    rfl

theorem biReqAck_spec :
    Mmio.Triple (bridge q) X (Snooping r m .req) (.write addrBiReqAck 1)
      fun _ => Snooping r m .waitRsp := by
  apply Mmio.Triple.write (snooping_stable (by decide))
  · intro s _
    exact bridge_ready_write fun h => absurd h (by decide)
  · intro s hs
    rw [bridge_cycle]
    exact hs.edge_ack (undisturbing_write (by decide)) rfl

theorem biRspSend_spec :
    Mmio.Triple (bridge q) X (Snooping r m .waitRsp) (.write addrBiRspSend 1)
      fun _ => Fired r (m.setBias (r.addrBits q) false) := by
  apply Mmio.Triple.write (snooping_stable (by decide))
  · intro s _
    exact bridge_ready_write fun h => absurd h (by decide)
  · intro s hs
    rw [bridge_cycle]
    exact hs.edge_rsp (undisturbing_write (by decide)) rfl

end Routines

section InService

/-- The request is in service, and at most `n` cycles away from its response. -/
def InService (r : Request) (d : q.engine.Data) (m : Model q.engine) (c n : ℕ)
    (s : Shim.State q) : Prop := ∃ k ≤ n, Serving r d m c k s

variable {n : ℕ}

theorem InService.cycle {x : Option (Mmio.Access (BitVec 5) (BitVec 32))} {s : Shim.State q}
    (h : InService r d m c n s) (hx : Undisturbing (onBus x)) :
    InService r d m c n ((bridge q).cycle x s) := by
  obtain ⟨k, hk, hs⟩ := h
  exact ⟨k - 1, (Nat.sub_le k 1).trans hk, hs.cycle hx⟩

/-- The bias table does not change while a request is in service. -/
theorem Serving.bias {k : ℕ} {s : Shim.State q} (h : Serving r d m c k s) :
    s.engine.bias = m.bias := by
  cases h with
  | evict h _ _ | flush h _ _ | ready h _ _ =>
      rw [← h.model]
      rfl
  | count h _ _ | offer h _ =>
      rw [← h.model]
      rfl

/-- `bias_read` works while a request is in service. -/
theorem biasRead_inService (addr : BitVec 32) :
    Mmio.Triple (bridge q) X (InService r d m c n) (biasRead addr) fun v s =>
      v = biasWord (m.bias (addr.extractLsb' 0 q.addrW)) ∧ InService r d m c n s := by
  have haddr : Mmio.Triple (bridge q) X (InService r d m c n) (.write addrBiasAddr addr)
      fun _ s => InService r d m c n s ∧ s.biasAddr = addr.extractLsb' 0 q.addrW := by
    apply Mmio.Triple.write
    · intro s hs
      exact hs.cycle undisturbing_idle
    · intro s _
      exact bridge_ready_write fun h => absurd h (by decide)
    · intro s hs
      refine ⟨hs.cycle (undisturbing_write (by decide)), ?_⟩
      rw [bridge_cycle]
      rfl
  have hget : Mmio.Triple (bridge q) X
      (fun s : Shim.State q => InService r d m c n s ∧ s.biasAddr = addr.extractLsb' 0 q.addrW)
      (.read addrBiasGet) fun v s =>
        v &&& 1 = biasWord (m.bias (addr.extractLsb' 0 q.addrW)) ∧ InService r d m c n s := by
    apply Mmio.Triple.read
    · rintro s ⟨hs, ha⟩
      refine ⟨hs.cycle undisturbing_idle, ?_⟩
      rw [bridge_cycle]
      exact ha
    · rintro s _
      exact bridge_ready_read _
    · rintro s ⟨hs, ha⟩
      refine ⟨?_, hs.cycle (undisturbing_read _)⟩
      obtain ⟨k, _, hk⟩ := hs
      exact biasGet_and ha (congrFun hk.bias _)
  apply haddr.bind
  intro _
  apply hget.bind
  intro v
  apply Mmio.Triple.of_pure
  intro hv
  apply Mmio.Triple.ret
  intro s hs
  exact ⟨hv, hs⟩

/-- The host's answer takes a snooped request into service, as if it had been fired
for a Device-Biased address. -/
theorem biRspSend_inService :
    Mmio.Triple (bridge q) X (Snooping r (m.setBias (r.addrBits q) true) .waitRsp)
      (.write addrBiRspSend 1) fun _ => InService r
        ((m.setBias (r.addrBits q) false).answer (r.addrBits q))
        ((m.setBias (r.addrBits q) false).access (r.access q))
        ((m.setBias (r.addrBits q) false).latency r) 7 := by
  have htwice : (m.setBias (r.addrBits q) true).setBias (r.addrBits q) false =
      m.setBias (r.addrBits q) false := by
    simp only [Model.setBias, Function.update_idem]
  have hdevice : (m.setBias (r.addrBits q) false).bias (r.addrBits q) = false :=
    Function.update_self ..
  apply biRspSend_spec.conseq fun _ h => h
  intro _ s hs
  rw [htwice] at hs
  exact ⟨_, Model.serviceTime_le _ r, hs.serving hdevice⟩

theorem waitValid_inService {polls : ℕ} (hn : X ∨ n < polls) :
    Mmio.Triple (bridge q) X (InService r d m c n) (waitValid polls) fun v s =>
      v = r.statusWord ∧ Served r d m s := by
  rintro s ⟨k, hk, hs⟩
  exact waitValid_spec (hn.imp_right (lt_of_le_of_lt hk)) s hs

end InService

/-- `test_phase4h` for any request: the Back-Invalidate request shows its address,
the handshake makes the address Device-Biased, and the request is then answered
as if it had been fired for a Device-Biased address. -/
theorem handshake_spec {polls : ℕ} (hp : X ∨ 7 < polls) :
    Mmio.Triple (bridge q) X (Rest m) (handshake polls r) fun v s =>
      v = ((r.addrBits q).setWidth 32, 0, r.statusWord, (r.tagBits q).setWidth 32) ∧
        Rest ((m.setBias (r.addrBits q) false).access (r.access q)) s := by
  have hhost : (m.setBias (r.addrBits q) true).bias (r.addrBits q) = true :=
    Function.update_self ..
  have hdevice : (m.setBias (r.addrBits q) false).bias (r.addrBits q) = false :=
    Function.update_self ..
  have hpoll : X ∨ 1 < polls := hp.imp_right (Nat.lt_of_le_of_lt (by omega))
  apply (biasWrite_spec r.addr true).bind
  intro _
  apply fire_fired.bind
  intro _
  apply (pollBiStatus_spec hhost hpoll).bind
  intro _
  apply biReqAddr_spec.bind
  intro biAddr
  apply Mmio.Triple.of_pure
  rintro rfl
  apply biReqAck_spec.bind
  intro _
  apply biRspSend_inService.bind
  intro _
  apply (biasRead_inService r.addr).bind
  intro bias
  apply Mmio.Triple.of_pure
  rintro rfl
  apply (waitValid_inService hp).bind
  intro status
  apply Mmio.Triple.of_pure
  rintro rfl
  apply respTag_spec.bind
  intro tag
  apply Mmio.Triple.of_pure
  rintro rfl
  apply ack_spec.bind
  intro _
  apply Mmio.Triple.ret
  intro s hs
  have hbias : biasWord ((m.setBias (r.addrBits q) false).bias (r.addrBits q)) = 0 := by
    rw [hdevice]
    rfl
  exact ⟨congrArg (fun w => (_, w, _, _)) hbias, hs⟩

end CxlLite.Hps
