import CxlLite.Hps.Calls

/-!
# What the routines do to a resting shim

Each routine gets one triple. A request leaves the shim at rest with the model
moved by one access, whatever the processor does between its register accesses.
-/

namespace CxlLite.Hps

open Shim

variable {q : ShimParams} {X : Prop} {m : Model q.engine} {r : Request} {d : q.engine.Data} {c : ℕ}

section Resting

theorem rest_cycle {x : Option (Mmio.Access (BitVec 5) (BitVec 32))} {s : Shim.State q}
    (h : Rest m s) (hx : Passive (onBus x)) : Rest m ((bridge q).cycle x s) := by
  rw [bridge_cycle]
  exact h.edge hx

theorem passive_idle : Passive (onBus none) := passive_of_no_write rfl rfl

theorem passive_read (r : BitVec 5) : Passive (onBus (some (.read r))) := passive_of_no_write rfl rfl

theorem rest_stable : (bridge q).Stable (Rest m) := fun _ h => rest_cycle h passive_idle

/-- A read leaves a shim at rest and returns the register. -/
theorem read_spec {reg : BitVec 5} {v : BitVec 32}
    (hv : ∀ s : Shim.State q, Rest m s → s.readReg reg = v) :
    Mmio.Triple (bridge q) X (Rest m) (.read reg) fun w s => w = v ∧ Rest m s := by
  apply Mmio.Triple.read rest_stable
  · intro s _
    exact bridge_ready_read reg
  · intro s hs
    exact ⟨hv s hs, rest_cycle hs (passive_read reg)⟩

theorem hits_spec :
    Mmio.Triple (bridge q) X (Rest m) hits fun v s => v = m.hits ∧ Rest m s := by
  apply read_spec
  intro s hs
  rw [← hs.model]
  rfl

theorem misses_spec :
    Mmio.Triple (bridge q) X (Rest m) misses fun v s => v = m.misses ∧ Rest m s := by
  apply read_spec
  intro s hs
  rw [← hs.model]
  rfl

end Resting

section Executions

/-- A program that is proved from rest returns on every shim with nothing pending or
outstanding, or exits if it may. -/
theorem outcome {α : Type} {prog : Prog α} {Q : α → Shim.State q → Prop} {x : Undefined q}
    {bus : ℕ → Bus} {t : ℕ} (hq : (Shim.run x bus t).Quiescent)
    (h : Mmio.Triple (bridge q) X (Rest (Model.ofShim (Shim.run x bus t))) prog Q)
    (gaps : ℕ → ℕ) :
    ∃ n c, Mmio.run (bridge q) gaps prog (Shim.run x bus t) n = c ∧
      ((∃ v, c.prog = .ret v ∧ Q v c.device) ∨ c.prog = .exit ∧ X) := by
  obtain ⟨n, hend⟩ := h.run (rest_of_quiescent hq) gaps
  exact ⟨n, _, rfl, hend⟩

end Executions

section Firing

/-- `REQ_ADDR` takes the address of the next request. -/
theorem reqAddr_spec :
    Mmio.Triple (bridge q) X (Rest m) (.write addrReqAddr r.addr)
      fun _ s => Rest m s ∧ s.reqAddr = r.addrBits q := by
  apply Mmio.Triple.write rest_stable
  · intro s hs
    exact bridge_ready_write fun _ => hs.quiescent.pending
  · intro s hs
    refine ⟨rest_cycle hs (passive_write (by decide)), ?_⟩
    rw [bridge_cycle]
    rfl

theorem reqWdata_spec :
    Mmio.Triple (bridge q) X (fun s => Rest m s ∧ s.reqAddr = r.addrBits q)
      (.write addrReqWdata r.wdata) fun _ s => Rest m s ∧ Loaded r s := by
  apply Mmio.Triple.write
  · rintro s ⟨hs, ha⟩
    refine ⟨rest_stable s hs, ?_⟩
    rw [bridge_cycle]
    exact ha
  · rintro s ⟨hs, _⟩
    exact bridge_ready_write fun _ => hs.quiescent.pending
  · rintro s ⟨hs, ha⟩
    refine ⟨rest_cycle hs (passive_write (by decide)), ?_⟩
    rw [bridge_cycle]
    exact ⟨ha, fun _ => rfl⟩

theorem reqFire_spec :
    Mmio.Triple (bridge q) X (fun s => Rest m s ∧ Loaded r s) (.write addrReqFire r.fireWord)
      fun _ => Fired r m := by
  apply Mmio.Triple.write
  · rintro s ⟨hs, hl⟩
    refine ⟨rest_stable s hs, ?_⟩
    rw [bridge_cycle]
    exact ⟨hl.addr, hl.wdata⟩
  · rintro s ⟨hs, _⟩
    exact bridge_ready_write fun _ => hs.quiescent.pending
  · rintro s ⟨hs, hl⟩
    rw [bridge_cycle]
    exact fired_edge hs hl

/-- A loaded request to a Device-Biased address is in service after `REQ_FIRE`. -/
theorem reqFire_serving (hbias : m.bias (r.addrBits q) = false) :
    Mmio.Triple (bridge q) X (fun s => Rest m s ∧ Loaded r s) (.write addrReqFire r.fireWord)
      fun _ => Serving r (m.answer (r.addrBits q)) (m.access (r.access q)) (m.latency r)
        (m.serviceTime r) :=
  reqFire_spec.conseq (fun _ h => h) fun _ _ hs => hs.serving hbias

theorem fire_fired : Mmio.Triple (bridge q) X (Rest m) (fire r) fun _ => Fired r m := by
  apply reqAddr_spec.bind
  intro _
  apply reqWdata_spec.bind
  intro _
  exact reqFire_spec

/-- A request to a Device-Biased address is in service after `fire`. -/
theorem fire_spec (hbias : m.bias (r.addrBits q) = false) :
    Mmio.Triple (bridge q) X (Rest m) (fire r) fun _ =>
      Serving r (m.answer (r.addrBits q)) (m.access (r.access q)) (m.latency r)
        (m.serviceTime r) := by
  apply fire_fired.conseq fun _ h => h
  intro _ s hs
  exact hs.serving hbias

theorem Model.serviceTime_le (m : Model q.engine) (r : Request) : m.serviceTime r ≤ 7 := by
  rw [Model.serviceTime, Model.latency]
  change (if _ then 0 else 3) + _ ≤ 7
  split <;> split <;> omega

end Firing

section Serving

/-- The response of the request is shown. -/
def Served (r : Request) (d : q.engine.Data) (m : Model q.engine) (s : Shim.State q) : Prop :=
  Accepted r d m s ∧ s.engine.respActive = true

/-- The value of `STATUS` while the response of the request is shown. -/
def Request.statusWord (r : Request) : BitVec 32 := if r.isWrite then 1 else 3

theorem Serving.cycle {x : Option (Mmio.Access (BitVec 5) (BitVec 32))} {k : ℕ}
    {s : Shim.State q} (h : Serving r d m c k s) (hx : Undisturbing (onBus x)) :
    Serving r d m c (k - 1) ((bridge q).cycle x s) := by
  rw [bridge_cycle]
  exact h.edge hx

theorem undisturbing_idle : Undisturbing (onBus none) := undisturbing_of_no_write rfl rfl

theorem undisturbing_read (r : BitVec 5) : Undisturbing (onBus (some (.read r))) :=
  undisturbing_of_no_write rfl rfl

theorem Served.cycle {x : Option (Mmio.Access (BitVec 5) (BitVec 32))} {s : Shim.State q}
    (h : Served r d m s) (hx : Undisturbing (onBus x)) :
    Served r d m ((bridge q).cycle x s) := by
  rw [bridge_cycle]
  have hk : Countdown r 0 s := h.2
  exact ⟨h.1.edge hx.calm, h.1.countdown_edge hk hx.calm⟩

theorem served_stable : (bridge q).Stable (Served r d m) := fun _ h => h.cycle undisturbing_idle

theorem statusValid_iff (s : Shim.State q) :
    statusValid (s.readReg addrStatus) = s.engine.respActive := by
  rw [Shim.State.readReg_status, show s.engine.s2mValid = s.engine.respActive from rfl]
  cases s.engine.s2mIsData <;> cases s.engine.respActive <;> rfl

theorem Served.status {s : Shim.State q} (h : Served r d m s) :
    s.readReg addrStatus = r.statusWord := by
  have hdata := (h.1.shows h.2).isData
  rw [Shim.State.status_isData] at hdata
  rw [Shim.State.readReg_status, hdata, show s.engine.s2mValid = true from h.2,
    Request.statusWord]
  cases r.isWrite <;> rfl

theorem pollStatus_spec {n polls : ℕ} (hn : X ∨ n < polls) :
    Mmio.Triple (bridge q) X (Serving r d m c n) (pollStatus polls)
      fun v s => v = r.statusWord ∧ Served r d m s := by
  apply Mmio.Triple.poll _ _ _ _ hn
  · intro n s hs
    exact hs.cycle undisturbing_idle
  · intro n s _
    exact bridge_ready_read _
  · intro n s hs hfail
    rw [bridge_data, statusValid_iff, Bool.eq_false_iff, ne_eq, hs.respActive_iff] at hfail
    exact ⟨Nat.pos_of_ne_zero hfail, hs.cycle (undisturbing_read _)⟩
  · intro n s hs hpass
    rw [bridge_data, statusValid_iff] at hpass
    obtain rfl := hs.respActive_iff.mp hpass
    have hserved : Served r d m s := hs.accepted
    exact ⟨hserved.status, hserved.cycle (undisturbing_read _)⟩

/-- While the response is shown, every register can be read without disturbing it. -/
theorem served_read_spec {reg : BitVec 5} {v : BitVec 32}
    (hv : ∀ s : Shim.State q, Served r d m s → s.readReg reg = v) :
    Mmio.Triple (bridge q) X (Served r d m) (.read reg) fun w s => w = v ∧ Served r d m s := by
  apply Mmio.Triple.read served_stable
  · intro s _
    exact bridge_ready_read reg
  · intro s hs
    exact ⟨hv s hs, hs.cycle (undisturbing_read reg)⟩

theorem respTag_spec :
    Mmio.Triple (bridge q) X (Served r d m) (.read addrRespTag)
      fun v s => v = (r.tagBits q).setWidth 32 ∧ Served r d m s :=
  served_read_spec fun _ hs => (hs.1.shows hs.2).tag

/-- `RESP_RDATA` holds the data of a read. After a write its value means nothing. -/
theorem respRdata_spec :
    Mmio.Triple (bridge q) X (Served r d m) (.read addrRespRdata) fun v s =>
      (r.isWrite = false → v = d.setWidth 32) ∧ Served r d m s := by
  apply Mmio.Triple.read served_stable
  · intro s _
    exact bridge_ready_read _
  · intro s hs
    exact ⟨(hs.1.shows hs.2).rdata, hs.cycle (undisturbing_read _)⟩

theorem ack_spec :
    Mmio.Triple (bridge q) X (Served r d m) (.write addrRespAck 1) fun _ => Rest m := by
  apply Mmio.Triple.write served_stable
  · intro s hs
    exact bridge_ready_write fun _ => hs.1.pending
  · intro s hs
    rw [bridge_cycle]
    exact hs.1.rest_of_ack hs.2 rfl rfl

theorem waitValid_spec {n polls : ℕ} (hn : X ∨ n < polls) :
    Mmio.Triple (bridge q) X (Serving r d m c n) (waitValid polls)
      fun v s => v = r.statusWord ∧ Served r d m s := by
  apply (pollStatus_spec hn).bind
  intro _
  apply Mmio.Triple.of_pure
  intro _
  exact served_read_spec fun _ hs => hs.status

end Serving

section Requests

variable {polls : ℕ}

theorem enough_polls (h : X ∨ 7 < polls) : X ∨ m.serviceTime r < polls :=
  h.imp_right (lt_of_le_of_lt (m.serviceTime_le r))

/-- A request, the wait for its response, the data and the acknowledge: the data of a
read is returned, and the model moves by the access. -/
theorem request_spec (hbias : m.bias (r.addrBits q) = false) (hp : X ∨ 7 < polls) :
    Mmio.Triple (bridge q) X (Rest m)
      ((fire r).bind fun _ => (pollStatus polls).bind fun _ =>
        Mmio.Prog.bind (.read addrRespRdata) fun v =>
          Mmio.Prog.bind (.write addrRespAck 1) fun _ => .ret v)
      fun v s => (r.isWrite = false → v = (m.answer (r.addrBits q)).setWidth 32) ∧
        Rest (m.access (r.access q)) s := by
  apply (fire_spec hbias).bind
  intro _
  apply (pollStatus_spec (enough_polls hp)).bind
  intro _
  apply Mmio.Triple.of_pure
  intro _
  apply respRdata_spec.bind
  intro v
  apply Mmio.Triple.of_pure
  intro hv
  apply ack_spec.bind
  intro _
  apply Mmio.Triple.ret
  intro s hs
  exact ⟨hv, hs⟩

/-- `do_req` returns the data of a read, and moves the model by its access. -/
theorem doReq_spec {isWrite : Bool} {addr wdata : BitVec 32}
    (hbias : m.bias (addr.extractLsb' 0 q.addrW) = false) (hp : X ∨ 7 < polls) :
    Mmio.Triple (bridge q) X (Rest m) (doReq polls isWrite addr wdata) fun v s =>
      (isWrite = false → v = (m.answer (addr.extractLsb' 0 q.addrW)).setWidth 32) ∧
        Rest (m.access ⟨addr.extractLsb' 0 q.addrW, isWrite, wdata.extractLsb' 0 q.dataW⟩) s :=
  request_spec (r := ⟨isWrite, addr, 1, wdata⟩) hbias hp

theorem checkedWrite_spec (hbias : m.bias (r.addrBits q) = false) (hp : X ∨ 7 < polls) :
    Mmio.Triple (bridge q) X (Rest m) (checkedWrite polls r) fun v s =>
      v = (r.statusWord, (r.tagBits q).setWidth 32) ∧ Rest (m.access (r.access q)) s := by
  apply (fire_spec hbias).bind
  intro _
  apply (pollStatus_spec (enough_polls hp)).bind
  intro v
  apply Mmio.Triple.of_pure
  rintro rfl
  apply respTag_spec.bind
  intro tag
  apply Mmio.Triple.of_pure
  rintro rfl
  apply ack_spec.bind
  intro _
  apply Mmio.Triple.ret
  intro s hs
  exact ⟨rfl, hs⟩

/-- A read is loaded by its address alone. -/
theorem reqAddr_loaded (hr : r.isWrite = false) :
    Mmio.Triple (bridge q) X (Rest m) (.write addrReqAddr r.addr)
      fun _ s => Rest m s ∧ Loaded r s := by
  apply reqAddr_spec.conseq fun _ h => h
  rintro _ s ⟨hs, ha⟩
  refine ⟨hs, ha, ?_⟩
  intro hw
  rw [hr] at hw
  cases hw

/-- The reads of the extended test fire what `REQ_WDATA` happens to hold. -/
theorem checkedRead_spec (hr : r.isWrite = false) (hbias : m.bias (r.addrBits q) = false)
    (hp : X ∨ 7 < polls) :
    Mmio.Triple (bridge q) X (Rest m) (checkedRead polls r) fun v s =>
      v = (r.statusWord, (r.tagBits q).setWidth 32, (m.answer (r.addrBits q)).setWidth 32) ∧
        Rest (m.access (r.access q)) s := by
  apply (reqAddr_loaded hr).bind
  intro _
  apply (reqFire_serving hbias).bind
  intro _
  apply (pollStatus_spec (enough_polls hp)).bind
  intro v
  apply Mmio.Triple.of_pure
  rintro rfl
  apply respTag_spec.bind
  intro tag
  apply Mmio.Triple.of_pure
  rintro rfl
  apply respRdata_spec.bind
  intro rdata
  apply Mmio.Triple.of_pure
  intro hdata
  obtain rfl := hdata hr
  apply ack_spec.bind
  intro _
  apply Mmio.Triple.ret
  intro s hs
  exact ⟨rfl, hs⟩

end Requests

end CxlLite.Hps
