import CxlLite.Driver.Phases
import CxlLite.Engine.ReadData

/-!
# A session refines a flat memory of calls

The engine accepts the requests of a session in the order of the calls, each
once. At any time the flat memory of the engine is that of the calls accepted
so far, and a read finds the memory of the calls before its own.
-/

namespace CxlLite.Driver

open Engine Shim Synchronous

variable {q : ShimParams}

/-- The request of the call has been fired. -/
def Pc.fired : Pc → Bool
  | .poll | .respRdata | .respAck => true
  | _ => false

/-- The number of calls whose request the engine has accepted. -/
def Session.landed (S : Session q) : ℕ :=
  S.driver.results.length + (S.driver.pc.fired && !S.shim.pendingValid).toNat

/-- What call `k` writes, if it is a write call, in terms of its `word`. -/
def writeAt {α : Type*} (word : Call → α) (calls : List Call) (k : ℕ) : Option α :=
  match calls[k]? with
  | some c => if c.isWrite then some (word c) else none
  | none => none

theorem writeAt_eq_some {α : Type*} {word : Call → α} {calls : List Call} {k : ℕ} {w : α} :
    writeAt word calls k = some w ↔
      ∃ c, calls[k]? = some c ∧ c.isWrite = true ∧ word c = w := by
  rw [writeAt]
  cases hc : calls[k]? with
  | none => simp
  | some c => cases hw : c.isWrite <;> simp [hw]

/-- The write of call `k`, as the request registers take it. -/
def callWrite (q : ShimParams) : List Call → ℕ → Option (q.engine.Addr × q.engine.Data) :=
  writeAt fun c => (c.reqAddr q, c.reqWdata q)

/-- The flat memory before call `k`. -/
def memoryAt (q : ShimParams) (calls : List Call) (k : ℕ) : q.engine.Addr → q.engine.Data :=
  FlatMemory.contents (callWrite q calls) 0 k

section Sessions

variable {prog : Program} {S : Session q} {c : Call}

theorem Prepared.not_pending {s : Shim.State q} {pc : Pc} (h : Prepared s c pc)
    (hr : s.engine.OfferReady) (hpc : pc ≠ .poll) : s.pendingValid = false := by
  cases pc with
  | reqAddr => exact h.pending
  | reqWdata | reqFire => exact h.1.pending
  | poll => exact absurd rfl hpc
  | respRdata | respAck => exact h.1.not_pending hr h.2

/-- A pending request is that of the call in progress, which is polling. -/
theorem Orderly.polling_of_pending (h : Orderly prog S) (hp : S.shim.pendingValid = true) :
    ∃ c, S.driver.call prog = some c ∧ S.driver.pc = .poll ∧ InFlight S.shim c := by
  cases hc : S.driver.call prog with
  | none =>
      rw [(h.done hc).2.pending] at hp
      cases hp
  | some c =>
      have hphase := h.phase c hc
      have hpc : S.driver.pc = .poll := by
        by_contra hne
        rw [hphase.not_pending h.offer hne] at hp
        cases hp
      rw [hpc] at hphase
      exact ⟨c, rfl, hpc, hphase⟩

/-- Nothing is written while a request is pending. -/
theorem Orderly.no_write_of_pending (h : Orderly prog S) (hp : S.shim.pendingValid = true) :
    (S.driver.bus prog).avsWrite = false := by
  obtain ⟨_, _, hpc, _⟩ := h.polling_of_pending hp
  rcases S.driver.bus_cases prog with hbus | ⟨c, _, _, hbus⟩
  · rw [hbus]
    rfl
  · rw [hbus, hpc]
    rfl

/-- The request that the engine accepts is that of call number `landed`. -/
theorem Orderly.accepted (h : Orderly prog S)
    (ha : S.shim.accepting (S.driver.bus prog) = true) :
    ∃ c, prog.calls[S.landed]? = some c ∧ S.landed = S.driver.results.length ∧
      InFlight S.shim c := by
  have hp : S.shim.pendingValid = true := (Bool.and_eq_true_iff.mp ha).1
  obtain ⟨c, hc, _, hflight⟩ := h.polling_of_pending hp
  have hlanded : S.landed = S.driver.results.length := by
    rw [Session.landed, hp, Bool.not_true, Bool.and_false]
    rfl
  refine ⟨c, ?_, hlanded, hflight⟩
  rw [hlanded]
  exact hc

theorem Orderly.not_pending_of_not_fired (h : Orderly prog S)
    (hf : S.driver.pc.fired = false) : S.shim.pendingValid = false := by
  rw [Bool.eq_false_iff]
  intro hp
  obtain ⟨_, _, hpc, _⟩ := h.polling_of_pending hp
  rw [hpc] at hf
  cases hf

/-- A fired request is pending until it is accepted, so that a cycle without a
write counts exactly the acceptances. -/
theorem landed_of_no_write {s : Shim.State q} {b : Bus} {f : Bool} (hrst : b.rstn = true)
    (hw : b.avsWrite = false) (hf : f = false → s.pendingValid = false) :
    (f && !(s.edge b).pendingValid).toNat =
      (f && !s.pendingValid).toNat + (s.accepting b).toNat := by
  rw [(holding_of_no_write hrst hw).pendingValid, Shim.State.accepting]
  cases f with
  | false =>
      rw [hf rfl]
      rfl
  | true => cases s.pendingValid <;> cases s.m2sReady b <;> rfl

theorem fired_advance {d : State} {v : BitVec 32} (h : d.pc = .poll ∨ d.pc = .respRdata) :
    (d.advance v).pc.fired = true := by
  rcases h with hpc | hpc
  · by_cases hv : v &&& statusValidMask = 0
    · rw [advance_of_invalid hpc hv, hpc]
      rfl
    · rw [advance_of_valid hpc hv]
      rfl
  · rw [State.advance, hpc]
    rfl

/-- Each acceptance is that of one more call. -/
theorem Orderly.landed_step (h : Orderly prog S) :
    (S.step prog).landed = S.landed + (S.shim.accepting (S.driver.bus prog)).toNat := by
  rcases h.step_cases with ⟨hc, hstep⟩ | ⟨c, hc, hw, hstep⟩ | ⟨c, hc, hw, hstep⟩
  · rw [hstep, State.bus_of_done hc]
    simp only [Session.landed]
    rw [landed_of_no_write rfl rfl h.not_pending_of_not_fired, add_assoc]
  · rw [hstep, State.bus_of_wait hw]
    simp only [Session.landed]
    rw [landed_of_no_write rfl rfl h.not_pending_of_not_fired, add_assoc]
  · rw [hstep, State.bus_of_access hc hw]
    have hphase := h.phase c hc
    simp only [Session.landed]
    cases hpc : S.driver.pc with
    | reqAddr | reqWdata =>
        have hp := hphase.not_pending h.offer (by simp [hpc])
        rw [Shim.State.accepting_of_not_pending hp]
        simp [State.advance, hpc, Pc.fired]
    | reqFire =>
        have hp := hphase.not_pending h.offer (by simp [hpc])
        rw [hpc] at hphase
        have hfire := (inFlight_of_fire hphase.1 h.offer hphase.2.1 hphase.2.2).1
        rw [Shim.State.accepting_of_not_pending hp, hfire]
        simp [State.advance, hpc, Pc.fired]
    | poll =>
        rw [fired_advance (Or.inl hpc), results_advance (by simp [hpc]),
          landed_of_no_write rfl rfl (by intro hf; cases hf), add_assoc]
        rfl
    | respRdata =>
        rw [fired_advance (Or.inr hpc), results_advance (by simp [hpc]),
          landed_of_no_write rfl rfl (by intro hf; cases hf), add_assoc]
        rfl
    | respAck =>
        have hp := hphase.not_pending h.offer (by simp [hpc])
        rw [Shim.State.accepting_of_not_pending hp, advance_of_ack hpc, hp, List.length_append]
        rfl

end Sessions

section Runs

variable (x : Undefined q) (prog : Program)

/-- The inputs of the engine in a session. -/
def sessionPorts : ℕ → Inputs q.engine := ports x (sessionBus x prog)

theorem sessionPorts_eq (t : ℕ) :
    sessionPorts x prog t = (session x prog t).shim.engineInputs (sessionBus x prog t) := by
  rw [session_shim]
  rfl

theorem session_engine (t : ℕ) :
    (session x prog t).shim.engine = Engine.run (sessionPorts x prog) t := by
  rw [session_shim]
  exact run_engine x _ t

theorem session_accepting (t : ℕ) :
    Engine.accepts (sessionPorts x prog) t =
      (session x prog t).shim.accepting (sessionBus x prog t) := by
  rw [Engine.accepts, ← session_engine, sessionPorts_eq]
  rfl

/-- The bypass input of the engine stays low. -/
theorem session_bypass (t : ℕ) : (sessionPorts x prog t).cacheBypassEn = false := by
  rw [sessionPorts_eq]
  exact (session_orderly x prog t).calm.bypass

/-- A stalled request keeps its address. -/
theorem session_holdsAddress : HoldsAddress (sessionPorts x prog) := by
  rintro t ⟨hvalid, hready⟩
  rw [← session_engine, sessionPorts_eq] at hready
  rw [sessionPorts_eq] at hvalid
  have hh := session_orderly x prog t
  have hrst := ((session x prog t).driver.bus_ordinary prog).rstn
  have hhold := holding_of_no_write (s := (session x prog t).shim) hrst
    (hh.no_write_of_pending hvalid)
  rw [sessionPorts_eq, sessionPorts_eq, session_succ, shim_step]
  constructor
  · have hpend : (session x prog t).shim.pendingValid = true := hvalid
    have hstall : (session x prog t).shim.m2sReady (sessionBus x prog t) = false := hready
    exact hhold.pendingValid.trans (by rw [hpend, ← sessionBus, hstall]; rfl)
  · exact hhold.reqAddr

theorem session_faithful (t : ℕ) : Faithful (sessionPorts x prog) t := by
  apply run_faithful (session_holdsAddress x prog)
  intro u _ hb
  rw [session_bypass] at hb
  cases hb

/-- The flat memory of the engine is that of the calls accepted so far. -/
theorem lastWritten_session (t : ℕ) :
    lastWritten (sessionPorts x prog) t = memoryAt q prog.calls (session x prog t).landed := by
  apply FlatMemory.contents_counter (n := fun t => (session x prog t).landed) rfl
  intro u
  have hstep := (session_orderly x prog u).landed_step
  rw [← session_succ, ← sessionBus] at hstep
  cases ha : (session x prog u).shim.accepting (sessionBus x prog u) with
  | false =>
      left
      rw [ha] at hstep
      refine ⟨hstep, acceptedWrite_of_not_accepts ?_⟩
      rw [session_accepting, ha]
  | true =>
      right
      rw [ha] at hstep
      obtain ⟨c, hc, _, hflight⟩ := (session_orderly x prog u).accepted ha
      refine ⟨hstep, ?_⟩
      rw [acceptedWrite, session_accepting, ha, Bool.true_and, callWrite, writeAt, hc,
        sessionPorts_eq]
      simp [Shim.State.engineInputs, hflight.isWrite, hflight.addr, hflight.wdata]

theorem landed_of_no_accept {u t : ℕ} (hut : u ≤ t)
    (hno : ∀ w, u ≤ w → w < t → Engine.accepts (sessionPorts x prog) w = false) :
    (session x prog t).landed = (session x prog u).landed := by
  induction t, hut using Nat.le_induction with
  | base => rfl
  | succ t hut ih =>
      have hstep := (session_orderly x prog t).landed_step
      have hquiet := hno t hut (Nat.lt_succ_self t)
      rw [session_accepting] at hquiet
      rw [← session_succ, ← sessionBus, hquiet] at hstep
      rw [hstep]
      exact ih fun w h₁ h₂ => hno w h₁ (Nat.lt_succ_of_lt h₂)

/-- Every request that the engine accepts carries the fixed tag. -/
theorem tag_of_accepts {t : ℕ} (h : Engine.accepts (sessionPorts x prog) t = true) :
    (sessionPorts x prog t).m2sTag = 1 := by
  rw [session_accepting] at h
  obtain ⟨_, _, _, hflight⟩ := (session_orderly x prog t).accepted h
  rw [sessionPorts_eq]
  exact hflight.tag

/-- The response that a read call is offered carries the memory before the call. -/
theorem offered_word {t : ℕ} {c : Call} (hc : (session x prog t).driver.call prog = some c)
    (hread : c.isWrite = false) (hfired : (session x prog t).driver.pc.fired = true)
    (hflight : InFlight (session x prog t).shim c)
    (hactive : (session x prog t).shim.engine.respActive = true) :
    (session x prog t).shim.engine.s2mRdata =
      memoryAt q prog.calls (session x prog t).driver.results.length (c.reqAddr q) := by
  have hp := hflight.not_pending (session_orderly x prog t).offer hactive
  have hnow : (session x prog t).landed = (session x prog t).driver.results.length + 1 := by
    rw [Session.landed, hp, hfired]
    rfl
  rw [session_engine] at hactive ⊢
  obtain ⟨u, hopen⟩ := offered_open (sessionPorts x prog) hactive
  obtain ⟨_, hcapture⟩ := offered_payload (sessionPorts x prog) hopen
  obtain ⟨hut, ⟨hacc, htag⟩, hno⟩ := hopen
  -- no other request is accepted in between, since it would carry the same tag
  have hlater : (session x prog t).landed = (session x prog (u + 1)).landed := by
    apply landed_of_no_accept x prog hut
    intro w h₁ h₂
    rw [Bool.eq_false_iff]
    intro hw
    apply (hno w h₁ h₂).1
    exact ⟨hw, (tag_of_accepts x prog hw).trans ((tag_of_accepts x prog hacc).symm.trans htag)⟩
  have haccu := hacc
  rw [session_accepting] at haccu
  obtain ⟨c', hc', _, hflight'⟩ := (session_orderly x prog u).accepted haccu
  have hcount : (session x prog u).landed = (session x prog t).driver.results.length := by
    have hstep := (session_orderly x prog u).landed_step
    rw [← session_succ, ← sessionBus, haccu, ← hlater, hnow] at hstep
    exact (Nat.succ.inj hstep).symm
  have hsame : c' = c := by
    rw [State.call, ← hcount, hc'] at hc
    exact Option.some.inj hc
  subst hsame
  have hisWrite : (sessionPorts x prog u).m2sIsWrite = false := by
    rw [sessionPorts_eq]
    exact hflight'.isWrite.trans hread
  have haddr : (sessionPorts x prog u).m2sAddr = c'.reqAddr q := by
    rw [sessionPorts_eq]
    exact hflight'.addr
  rw [hcapture hisWrite, readCapture_eq (session_faithful x prog u), session_bypass,
    lastWritten_session, haddr, hcount]
  simp

end Runs

section Results

variable {x : Undefined q} {prog : Program}

/-- What a read call `c` at position `k` has to return. -/
def readWord (q : ShimParams) (calls : List Call) (k : ℕ) (c : Call) : BitVec 32 :=
  (memoryAt q calls k (c.reqAddr q)).setWidth 32

/-- Every read call that has returned, or holds its data, holds the right word. -/
structure Answered (prog : Program) (S : Session q) : Prop where
  results : ∀ k c v, prog.calls[k]? = some c → c.isWrite = false →
    S.driver.results[k]? = some v → v = readWord q prog.calls k c
  rdata : ∀ c, S.driver.call prog = some c → c.isWrite = false → S.driver.pc = .respAck →
    S.driver.rdata = readWord q prog.calls S.driver.results.length c

/-- `RESP_RDATA` is read right before the acknowledge. -/
theorem rdata_advance {d : State} {v : BitVec 32} (h : (d.advance v).pc = .respAck)
    (hpc : d.pc ≠ .respAck) : d.pc = .respRdata ∧ (d.advance v).rdata = v := by
  cases hd : d.pc with
  | poll =>
      by_cases hv : v &&& statusValidMask = 0
      · rw [advance_of_invalid hd hv] at h
        exact absurd h hpc
      · rw [advance_of_valid hd hv] at h
        cases h
  | respAck => exact absurd hd hpc
  | respRdata =>
      rw [State.advance, hd]
      exact ⟨rfl, rfl⟩
  | _ =>
      rw [State.advance, hd] at h
      cases h

/-- The acknowledge makes the data read a result. -/
theorem Answered.ack {S S' : Session q} (h : Answered prog S) (hpc : S.driver.pc = .respAck)
    (hresults : S'.driver.results = S.driver.results ++ [S.driver.rdata])
    (hpc' : S'.driver.pc = .reqAddr) : Answered prog S' where
  results k c v hc hread hv := by
    rw [hresults] at hv
    rcases Nat.lt_trichotomy k S.driver.results.length with hk | rfl | hk
    · rw [List.getElem?_append_left hk] at hv
      exact h.results k c v hc hread hv
    · rw [List.getElem?_concat_length] at hv
      rw [← Option.some.inj hv]
      exact h.rdata c hc hread hpc
    · have hlen : (S.driver.results ++ [S.driver.rdata]).length ≤ k := by
        rw [List.length_append]
        exact hk
      rw [List.getElem?_eq_none hlen] at hv
      cases hv
  rdata c _ _ hack := by
    rw [hpc'] at hack
    cases hack

/-- An access of `do_req` other than the acknowledge leaves the results alone. -/
theorem Answered.advance {S S' : Session q} (h : Answered prog S)
    (hresults : S'.driver.results = S.driver.results)
    (hrdata : ∀ c, S.driver.call prog = some c → c.isWrite = false →
      S'.driver.pc = .respAck →
        S'.driver.rdata = readWord q prog.calls S.driver.results.length c) :
    Answered prog S' where
  results k c v hc hread hv := by
    rw [hresults] at hv
    exact h.results k c v hc hread hv
  rdata c hc hread hack := by
    rw [State.call, hresults] at hc
    rw [hresults]
    exact hrdata c hc hread hack

theorem session_answered (x : Undefined q) (prog : Program) (t : ℕ) :
    Answered prog (session x prog t) := by
  induction t with
  | zero =>
      constructor
      · intro k c v _ _ hv
        cases hv
      · intro c _ _ hpc
        cases hpc
  | succ t ih =>
      have ho := session_orderly x prog t
      rw [session_succ]
      rcases ho.step_cases with ⟨hc, hstep⟩ | ⟨c, hc, _, hstep⟩ | ⟨c, hc, _, hstep⟩
      · rw [hstep]
        exact ⟨ih.results, ih.rdata⟩
      · rw [hstep]
        exact ⟨ih.results, ih.rdata⟩
      · rw [hstep]
        by_cases hpc : (session x prog t).driver.pc = .respAck
        · apply ih.ack hpc <;> rw [advance_of_ack hpc]
        · apply ih.advance (results_advance hpc)
          intro c' hc' hread hnext
          obtain ⟨hrdata, hword⟩ := rdata_advance hnext hpc
          have hphase := ho.phase c' hc'
          rw [hrdata] at hphase hword
          have hfired : (session x prog t).driver.pc.fired = true := by
            rw [hrdata]
            rfl
          rw [readWord, ← offered_word x prog hc' hread hfired hphase.1 hphase.2, hrdata]
          exact hword

end Results

end CxlLite.Driver
