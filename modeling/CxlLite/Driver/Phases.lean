import CxlLite.Driver.DoReq
import CxlLite.Shim.Service

/-!
# What holds at each access of `do_req`

Before its request is fired a call finds the shim quiescent, afterwards exactly
its own request is pending or outstanding, and its acknowledge leaves a
quiescent shim to the next call.
-/

namespace CxlLite.Driver

open Engine Shim Synchronous

variable {q : ShimParams}

/-- The request address that `REQ_ADDR` takes from a call. -/
def Call.reqAddr (q : ShimParams) (c : Call) : q.engine.Addr := c.addr.extractLsb' 0 q.addrW

/-- The request data that `REQ_WDATA` takes from a call. -/
def Call.reqWdata (q : ShimParams) (c : Call) : q.engine.Data := c.wdata.extractLsb' 0 q.dataW

/-- All lines are Device-Biased, no handshake is in progress, and bypass is off. -/
structure Calm (s : Shim.State q) : Prop where
  bypass : s.cacheBypassEn = false
  bias : ∀ a, s.engine.bias a = false
  handshake : s.engine.biState = .idle

/-- The request of `c`, and no other, is pending or outstanding. -/
structure InFlight (s : Shim.State q) (c : Call) : Prop where
  addr : s.reqAddr = c.reqAddr q
  wdata : s.reqWdata = c.reqWdata q
  tag : s.pendingTag = 1
  isWrite : s.pendingIsWrite = c.isWrite
  waiting : s.pendingValid = true → ∀ g, (s.engine.slot g).valid = false
  accepted : s.pendingValid = false →
    s.engine.flushState = .idle ∧ ∀ g, (s.engine.slot g).valid = true ↔ g = s.pendingTag

/-- What the call `c` relies on when it is about to make the access at `pc`. -/
def Prepared (s : Shim.State q) (c : Call) : Pc → Prop
  | .reqAddr => s.Quiescent
  | .reqWdata => s.Quiescent ∧ s.reqAddr = c.reqAddr q
  | .reqFire => s.Quiescent ∧ s.reqAddr = c.reqAddr q ∧ s.reqWdata = c.reqWdata q
  | .poll => InFlight s c
  | .respRdata | .respAck => InFlight s c ∧ s.engine.respActive = true

section Steps

variable {s : Shim.State q} {b : Bus} {c : Call}

theorem Calm.biasQuery (h : Calm s) : s.engine.biasQueryRdData (s.engineInputs b) = false :=
  h.bias s.reqAddr

theorem Calm.edge (h : Calm s) (hb : Ordinary b) : Calm (s.edge b) where
  bypass := by
    simp [Shim.State.edge, Shim.State.cacheBypassEnNext, hb.bypass, h.bypass]
  bias a := by
    have hflip : s.engine.biFlipNow (s.engineInputs b) = false := by
      simp [Engine.State.biFlipNow, h.handshake]
    have hen : (s.engineInputs b).biasWrEn = false := hb.bias
    rw [Shim.State.edge_engine hb.rstn]
    change s.engine.biasNext (s.engineInputs b) a = false
    rw [biasNext_of_not_flip hflip, hen]
    exact h.bias a
  handshake := by
    rw [Shim.State.edge_engine hb.rstn]
    simp [Engine.State.edge, Engine.State.biStateNext, Engine.State.wantBi, h.handshake,
      h.biasQuery]

/-- A cycle that writes nothing latches nothing. -/
theorem latched_edge (hw : b.avsWrite = false) :
    (s.edge b).reqAddr = s.reqAddr ∧ (s.edge b).reqWdata = s.reqWdata ∧
      (s.edge b).pendingTag = s.pendingTag ∧ (s.edge b).pendingIsWrite = s.pendingIsWrite := by
  simp [Shim.State.edge, Shim.State.reqAddrNext, Shim.State.reqWdataNext,
    Shim.State.pendingTagNext, Shim.State.pendingIsWriteNext, Bus.writeFire,
    Bus.writes_of_no_write hw]

theorem not_consumed_of_no_write (hw : b.avsWrite = false) :
    s.engine.respConsumedThisCycle (s.engineInputs b) = false := by
  have hready : (s.engineInputs b).s2mReady = false := Bus.writes_of_no_write hw _
  rw [Engine.State.respConsumedThisCycle, hready, Bool.and_false]

/-- An offered response belongs to a request that has been accepted. -/
theorem InFlight.not_pending (h : InFlight s c) (hr : s.engine.OfferReady)
    (ha : s.engine.respActive = true) : s.pendingValid = false := by
  rw [Bool.eq_false_iff]
  intro hp
  have hvalid := (eligible_iff.mp (hr ha)).1
  rw [h.waiting hp] at hvalid
  cases hvalid

/-- No eviction starts in a cycle in which the request is accepted or already gone. -/
theorem flushState_edge_idle (hrst : b.rstn = true) (hidle : s.engine.flushState = .idle)
    (h : s.accepting b = true ∨ s.pendingValid = false) :
    (s.edge b).engine.flushState = .idle := by
  have hwant : s.engine.wantFlush (s.engineInputs b) = false := by
    rcases h with ha | hp
    · rw [Shim.State.accepting_eq] at ha
      have hneed := (accept_iff.mp ha).2.2.2.2.2
      simp [Engine.State.wantFlush, hneed]
    · have hvalid : (s.engineInputs b).m2sValid = false := hp
      simp [Engine.State.wantFlush, hvalid]
  rw [Shim.State.edge_engine hrst]
  simp [Engine.State.edge, Engine.State.flushStateNext, hidle, hwant]

theorem slot_valid_edge (hr : s.engine.OfferReady) (hrst : b.rstn = true) (g : q.engine.Tag) :
    ((s.edge b).engine.slot g).valid = true ↔
      (s.accepting b = true ∧ s.pendingTag = g) ∨
        (s.engine.slot g).valid = true ∧
          ¬ (s.engine.respConsumedThisCycle (s.engineInputs b) = true ∧
            s.engine.respTag = g) := by
  rw [Shim.State.edge_engine hrst]
  exact slotNext_valid_iff hr g

/-- The acceptance occupies the slot of the request, and no other. -/
theorem InFlight.slots_of_accept (h : InFlight s c) (hr : s.engine.OfferReady)
    (hrst : b.rstn = true) (hp : s.pendingValid = true) (ha : s.accepting b = true)
    (g : q.engine.Tag) :
    ((s.edge b).engine.slot g).valid = true ↔ g = s.pendingTag := by
  rw [slot_valid_edge hr hrst, ha, h.waiting hp]
  constructor
  · rintro (⟨_, hg⟩ | ⟨hbusy, _⟩)
    · exact hg.symm
    · cases hbusy
  · intro hg
    exact Or.inl ⟨rfl, hg.symm⟩

/-- An accepted request keeps its slot until the acknowledge. -/
theorem InFlight.slots_kept (h : InFlight s c) (hr : s.engine.OfferReady)
    (hrst : b.rstn = true) (hw : b.avsWrite = false) (hp : s.pendingValid = false)
    (g : q.engine.Tag) :
    ((s.edge b).engine.slot g).valid = true ↔ g = s.pendingTag := by
  rw [slot_valid_edge hr hrst, Shim.State.accepting_of_not_pending hp,
    not_consumed_of_no_write hw, (h.accepted hp).2]
  simp

/-- A cycle that writes nothing leaves the request in flight. -/
theorem InFlight.edge (h : InFlight s c) (hr : s.engine.OfferReady) (hrst : b.rstn = true)
    (hw : b.avsWrite = false) : InFlight (s.edge b) c := by
  obtain ⟨haddr, hwdata, htag, hisWrite⟩ := latched_edge (s := s) hw
  have hpend := (holding_of_no_write (s := s) hrst hw).pendingValid
  constructor
  · rw [haddr, h.addr]
  · rw [hwdata, h.wdata]
  · rw [htag, h.tag]
  · rw [hisWrite, h.isWrite]
  · intro hp g
    rw [hpend, Bool.and_eq_true, Bool.not_eq_true'] at hp
    have haccept : s.accepting b = false := by simp [Shim.State.accepting, hp.2]
    rw [Bool.eq_false_iff, ne_eq, slot_valid_edge hr hrst, haccept, h.waiting hp.1]
    simp
  · intro hp
    rw [hpend] at hp
    rw [htag]
    cases hv : s.pendingValid with
    | false =>
        constructor
        · exact flushState_edge_idle hrst (h.accepted hv).1 (Or.inr hv)
        · exact h.slots_kept hr hrst hw hv
    | true =>
        have haccept : s.accepting b = true := by
          simpa [Shim.State.accepting, hv] using hp
        have hidle : s.engine.flushState = .idle := by
          rw [Shim.State.accepting_eq] at haccept
          exact flushState_of_accept haccept
        constructor
        · exact flushState_edge_idle hrst hidle (Or.inl haccept)
        · exact h.slots_of_accept hr hrst hv haccept

/-- `REQ_FIRE` puts the request of the call in flight. -/
theorem inFlight_of_fire (hq : s.Quiescent) (hr : s.engine.OfferReady)
    (haddr : s.reqAddr = c.reqAddr q) (hwdata : s.reqWdata = c.reqWdata q) :
    (s.edge (c.access .reqFire).bus).pendingValid = true ∧
      InFlight (s.edge (c.access .reqFire).bus) c := by
  have hfire : (c.access .reqFire).bus.writeFire = true := rfl
  have hpend : (s.edge (c.access .reqFire).bus).pendingValid = true := by
    simp [Shim.State.edge, Shim.State.pendingValidNext, hfire, hq.pending]
  refine ⟨hpend, haddr, hwdata, ?_, ?_, ?_, ?_⟩
  · simp only [Shim.State.edge, Shim.State.pendingTagNext, hfire, hq.pending]
    cases hc : c.isWrite <;> simp [Call.access, Access.bus, Call.fireWord, hc, Bus.writeTag] <;> rfl
  · simp only [Shim.State.edge, Shim.State.pendingIsWriteNext, hfire, hq.pending]
    cases hc : c.isWrite <;> simp [Call.access, Access.bus, Call.fireWord, hc, Bus.writeBit]
  · intro _ g
    rw [Bool.eq_false_iff, ne_eq, slot_valid_edge hr rfl,
      Shim.State.accepting_of_not_pending hq.pending, hq.slots]
    simp
  · intro hp
    rw [hpend] at hp
    cases hp

/-- `RESP_ACK` frees the only slot in use. -/
theorem quiescent_of_ack (h : InFlight s c) (hs : Calm s) (hr : s.engine.OfferReady)
    (ha : s.engine.respActive = true) :
    (s.edge (c.access .respAck).bus).Quiescent := by
  have hp := h.not_pending hr ha
  obtain ⟨hidle, hslots⟩ := h.accepted hp
  have hack : s.engine.respConsumedThisCycle (s.engineInputs (c.access .respAck).bus) = true := by
    rw [Engine.State.respConsumedThisCycle, ha]
    rfl
  have htag := (hslots _).mp (hr.consumed hack).1
  constructor
  · simp [Shim.State.edge, Shim.State.pendingValidNext, hp]
    rfl
  · exact (hs.edge ⟨rfl, rfl, rfl⟩).handshake
  · exact flushState_edge_idle rfl hidle (Or.inr hp)
  · intro g
    rw [Bool.eq_false_iff, ne_eq, slot_valid_edge hr rfl,
      Shim.State.accepting_of_not_pending hp, hack, hslots, htag]
    rintro (⟨hfalse, _⟩ | ⟨hg, hno⟩)
    · cases hfalse
    · exact hno ⟨rfl, hg.symm⟩

end Steps

section Accesses

variable {s : Shim.State q} {b : Bus} {c : Call} {d : State}

theorem respActive_edge (hr : s.engine.OfferReady) (ha : s.engine.respActive = true)
    (hrst : b.rstn = true) (hw : b.avsWrite = false) :
    (s.edge b).engine.respActive = true := by
  rw [Shim.State.edge_engine hrst]
  exact (offer_kept hr ha (Bus.writes_of_no_write hw _)).1

/-- A cycle that writes nothing leaves a call prepared. -/
theorem Prepared.edge {pc : Pc} (h : Prepared s c pc) (hr : s.engine.OfferReady)
    (hrst : b.rstn = true) (hw : b.avsWrite = false) : Prepared (s.edge b) c pc := by
  have hfire : b.writeFire = false := Bus.writes_of_no_write hw _
  obtain ⟨haddr, hwdata, _⟩ := latched_edge (s := s) hw
  cases pc with
  | reqAddr => exact Shim.State.Quiescent.edge h hr hrst hfire
  | reqWdata => exact ⟨h.1.edge hr hrst hfire, haddr.trans h.2⟩
  | reqFire => exact ⟨h.1.edge hr hrst hfire, haddr.trans h.2.1, hwdata.trans h.2.2⟩
  | poll => exact InFlight.edge h hr hrst hw
  | respRdata | respAck => exact ⟨h.1.edge hr hrst hw, respActive_edge hr h.2 hrst hw⟩

theorem readdata_poll :
    s.avsReaddata (c.access .poll).bus =
      0#30 ++ BitVec.ofBool s.engine.s2mIsData ++ BitVec.ofBool s.engine.respActive := rfl

/-- The poll loop leaves when a response is offered. -/
theorem poll_ne_zero (h : s.engine.respActive = true) :
    s.avsReaddata (c.access .poll).bus &&& statusValidMask ≠ 0 := by
  rw [readdata_poll, h]
  cases s.engine.s2mIsData <;> decide

theorem poll_eq_zero (h : s.engine.respActive = false) :
    s.avsReaddata (c.access .poll).bus &&& statusValidMask = 0 := by
  rw [readdata_poll, h]
  cases s.engine.s2mIsData <;> decide

theorem advance_of_valid {v : BitVec 32} (hpc : d.pc = .poll) (hv : v &&& statusValidMask ≠ 0) :
    d.advance v = { d with pc := .respRdata } := by
  rw [State.advance, hpc]
  exact if_neg hv

theorem advance_of_invalid {v : BitVec 32} (hpc : d.pc = .poll)
    (hv : v &&& statusValidMask = 0) : d.advance v = d := by
  rw [State.advance, hpc]
  exact if_pos hv

/-- Each access but the last prepares the next one of its call. -/
theorem Prepared.advance (h : Prepared s c d.pc) (hr : s.engine.OfferReady)
    (hpc : d.pc ≠ .respAck) :
    Prepared (s.edge (c.access d.pc).bus) c
      (d.advance (s.avsReaddata (c.access d.pc).bus)).pc := by
  cases hd : d.pc with
  | reqAddr =>
      rw [hd] at h
      rw [State.advance, hd]
      exact ⟨Shim.State.Quiescent.edge h hr rfl rfl, rfl⟩
  | reqWdata =>
      rw [hd] at h
      rw [State.advance, hd]
      exact ⟨h.1.edge hr rfl rfl, h.2, rfl⟩
  | reqFire =>
      rw [hd] at h
      rw [State.advance, hd]
      exact (inFlight_of_fire h.1 hr h.2.1 h.2.2).2
  | poll =>
      rw [hd] at h
      have hnext : InFlight (s.edge (c.access .poll).bus) c := InFlight.edge h hr rfl rfl
      cases ha : s.engine.respActive with
      | false =>
          rw [advance_of_invalid hd (poll_eq_zero ha), hd]
          exact hnext
      | true =>
          rw [advance_of_valid hd (poll_ne_zero ha)]
          exact ⟨hnext, respActive_edge hr ha rfl rfl⟩
  | respRdata =>
      rw [hd] at h
      rw [State.advance, hd]
      exact ⟨h.1.edge hr rfl rfl, respActive_edge hr h.2 rfl rfl⟩
  | respAck => exact absurd hd hpc

end Accesses

section Sessions

variable {prog : Program} {S : Session q}

/-- The invariant of a session: the shim is what the current access relies on. -/
structure Orderly (prog : Program) (S : Session q) : Prop where
  calm : Calm S.shim
  offer : S.shim.engine.OfferReady
  phase : ∀ c, S.driver.call prog = some c → Prepared S.shim c S.driver.pc
  done : S.driver.call prog = none → S.driver.pc = .reqAddr ∧ S.shim.Quiescent

theorem shim_step : (S.step prog).shim = S.shim.edge (S.driver.bus prog) :=
  Shim.State.step_of_rstn (S.driver.bus_ordinary prog).rstn

/-- No write of the driver is held up: `REQ_FIRE` finds no request pending. -/
theorem Orderly.not_stalled (h : Orderly prog S) :
    S.shim.avsWaitrequest (S.driver.bus prog) = false := by
  rcases S.driver.bus_cases prog with hbus | ⟨c, hc, _, hbus⟩
  · rw [hbus]
    rfl
  · rw [hbus]
    have hphase := h.phase c hc
    cases hpc : S.driver.pc with
    | reqFire =>
        rw [hpc] at hphase
        rw [Shim.State.avsWaitrequest, hphase.1.pending, Bool.and_false]
    | _ => rfl

/-- What one cycle of a session can be. -/
theorem Orderly.step_cases (h : Orderly prog S) :
    (S.driver.call prog = none ∧ S.step prog = ⟨S.driver, S.shim.edge Bus.idle⟩) ∨
      (∃ c, S.driver.call prog = some c ∧ S.driver.wait ≠ 0 ∧
        S.step prog =
          ⟨{ S.driver with wait := S.driver.wait - 1 }, S.shim.edge Bus.idle⟩) ∨
      ∃ c, S.driver.call prog = some c ∧ S.driver.wait = 0 ∧
        S.step prog =
          ⟨{ S.driver.advance (S.shim.avsReaddata (c.access S.driver.pc).bus) with
              wait := prog.gaps (S.driver.accesses + 1)
              accesses := S.driver.accesses + 1 },
            S.shim.edge (c.access S.driver.pc).bus⟩ := by
  have hshim : S.shim.step (S.driver.bus prog) = S.shim.edge (S.driver.bus prog) := shim_step
  have hstall := h.not_stalled
  cases hc : S.driver.call prog with
  | none =>
      have hbus := State.bus_of_done hc
      left
      refine ⟨rfl, ?_⟩
      rw [Session.step, hshim, hbus, State.step_of_done hc]
  | some c =>
      right
      by_cases hw : S.driver.wait = 0
      · have hbus := State.bus_of_access hc hw
        right
        refine ⟨c, rfl, hw, ?_⟩
        rw [Session.step, hshim, hstall, hbus, State.step_of_access hc hw]
      · have hbus : S.driver.bus prog = Bus.idle := State.bus_of_wait hw
        left
        refine ⟨c, rfl, hw, ?_⟩
        rw [Session.step, hshim, hbus, State.step_of_wait hc hw]

/-- Every access but the acknowledge leaves the driver in its call. -/
theorem results_advance {d : State} {v : BitVec 32} (h : d.pc ≠ .respAck) :
    (d.advance v).results = d.results := by
  rw [State.advance]
  cases hd : d.pc with
  | poll =>
      dsimp only
      split <;> rfl
  | respAck => exact absurd hd h
  | _ => rfl

theorem advance_of_ack {d : State} {v : BitVec 32} (h : d.pc = .respAck) :
    d.advance v = { d with results := d.results ++ [d.rdata], pc := .reqAddr } := by
  rw [State.advance, h]

theorem Orderly.step (h : Orderly prog S) : Orderly prog (S.step prog) where
  calm := by
    rw [shim_step]
    exact h.calm.edge (S.driver.bus_ordinary prog)
  offer := by
    rw [shim_step, Shim.State.edge_engine (S.driver.bus_ordinary prog).rstn]
    exact edge_offerReady h.offer
  phase c' hc' := by
    rcases h.step_cases with ⟨hc, hstep⟩ | ⟨c, hc, _, hstep⟩ | ⟨c, hc, _, hstep⟩
    · rw [hstep] at hc'
      rw [hc] at hc'
      cases hc'
    · rw [hstep] at hc' ⊢
      exact (h.phase c' hc').edge h.offer rfl rfl
    · rw [hstep] at hc' ⊢
      have hphase := h.phase c hc
      by_cases hpc : S.driver.pc = .respAck
      · rw [hpc] at hphase ⊢
        dsimp only
        rw [advance_of_ack hpc]
        exact quiescent_of_ack hphase.1 h.calm h.offer hphase.2
      · have hsame : some c = some c' := by
          rw [← hc, ← hc', State.call, State.call]
          dsimp only
          rw [results_advance hpc]
        obtain rfl := Option.some.inj hsame
        exact hphase.advance h.offer hpc
  done hc' := by
    rcases h.step_cases with ⟨hc, hstep⟩ | ⟨c, hc, _, hstep⟩ | ⟨c, hc, _, hstep⟩
    · rw [hstep]
      obtain ⟨hpc, hq⟩ := h.done hc
      exact ⟨hpc, hq.edge h.offer rfl rfl⟩
    · rw [hstep] at hc'
      rw [show S.driver.call prog = none from hc'] at hc
      cases hc
    · rw [hstep] at hc' ⊢
      by_cases hpc : S.driver.pc = .respAck
      · have hphase := h.phase c hc
        rw [hpc] at hphase ⊢
        dsimp only
        rw [advance_of_ack hpc]
        exact ⟨rfl, quiescent_of_ack hphase.1 h.calm h.offer hphase.2⟩
      · rw [State.call] at hc hc'
        dsimp only at hc'
        rw [results_advance hpc, hc] at hc'
        cases hc'

theorem orderly_start (x : Undefined q) (prog : Program) :
    Orderly prog ⟨start prog, powerOn x⟩ := by
  have hq : (powerOn x).Quiescent := ⟨rfl, rfl, rfl, fun _ => rfl⟩
  refine ⟨⟨rfl, fun _ => rfl, rfl⟩, ?_, fun _ _ => hq, fun _ => ⟨rfl, hq⟩⟩
  intro h
  cases h

/-- Every session is orderly in every cycle. -/
theorem session_orderly (x : Undefined q) (prog : Program) (t : ℕ) :
    Orderly prog (session x prog t) := by
  apply (machine q prog).run_invariant (P := Orderly prog) (orderly_start x prog)
  · intro _ _ h
    exact h
  · intro _ _ h
    exact h.step

end Sessions

end CxlLite.Driver
