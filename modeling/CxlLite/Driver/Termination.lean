import CxlLite.Driver.Refinement
import CxlLite.Synchronous.LeadsTo
import Mathlib.Data.Prod.Lex

/-!
# Every call returns the memory's answer

Each access is made once its idle cycles have passed. The poll loop ends because
the debt of the shim falls in every cycle in which no response is offered yet.
-/

namespace CxlLite.Driver

open Engine Shim Synchronous

variable {q : ShimParams}

section Statements

variable (x : Undefined q) (prog : Program)

/-- A write of the driver is held up in cycle `t`. -/
def Stalled (t : ℕ) : Prop :=
  (session x prog t).shim.avsWaitrequest (sessionBus x prog t) = true

/-- In cycle `t` the driver is in call `k`, about to make the access at `pc`. -/
def At (k : ℕ) (pc : Pc) (t : ℕ) : Prop :=
  (session x prog t).driver.results.length = k ∧ (session x prog t).driver.pc = pc

/-- The arguments of the call fit into `REQ_ADDR` and `REQ_WDATA`. -/
def Call.Fits (q : ShimParams) (c : Call) : Prop :=
  c.addr.toNat < 2 ^ q.addrW ∧ c.wdata.toNat < 2 ^ q.dataW

/-- The write of call `k`, with its arguments as the caller gave them. -/
def argumentWrite : List Call → ℕ → Option (BitVec 32 × BitVec 32) :=
  writeAt fun c => (c.addr, c.wdata)

/-- The read call `c` at position `k` has returned `v`: the data of the last
preceding write call to its address, or 0. Addresses and data count as far as the
registers take them, and so literally where all arguments fit. -/
structure ReturnsLast (q : ShimParams) (calls : List Call) (k : ℕ) (c : Call)
    (v : BitVec 32) : Prop where
  latched : ∃ d, FlatMemory.IsLast (callWrite q calls) 0 k (c.reqAddr q) d ∧ v = d.setWidth 32
  literal : (∀ c' ∈ calls, c'.Fits q) → FlatMemory.IsLast (argumentWrite calls) 0 k c.addr v

end Statements

section Answers

theorem setWidth_extractLsb' {a : BitVec 32} {w : ℕ} (h : a.toNat < 2 ^ w) :
    (a.extractLsb' 0 w).setWidth 32 = a := by
  apply BitVec.eq_of_toNat_eq
  rw [BitVec.toNat_setWidth, BitVec.extractLsb'_toNat, Nat.shiftRight_zero, Nat.mod_eq_of_lt h,
    Nat.mod_eq_of_lt a.isLt]

/-- Calls with fitting arguments have the same address only if the registers agree. -/
theorem addr_inj {c c' : Call} (h : c.Fits q) (h' : c'.Fits q)
    (heq : c.reqAddr q = c'.reqAddr q) : c.addr = c'.addr := by
  rw [← setWidth_extractLsb' h.1, ← setWidth_extractLsb' h'.1]
  exact congrArg (BitVec.setWidth 32) heq

theorem returnsLast_readWord {calls : List Call} {k : ℕ} {c : Call} (hc : calls[k]? = some c) :
    ReturnsLast q calls k c (readWord q calls k c) := by
  have hlast : FlatMemory.IsLast (callWrite q calls) 0 k (c.reqAddr q)
      (memoryAt q calls k (c.reqAddr q)) := FlatMemory.contents_isLast k _
  constructor
  · exact ⟨_, hlast, rfl⟩
  · intro hfits
    have hfit := hfits c (List.mem_of_getElem? hc)
    have hzero : (0 : q.engine.Data).setWidth 32 = 0 := BitVec.setWidth_zero ..
    rw [← hzero]
    apply hlast.represented (f := fun a => a.extractLsb' 0 q.addrW) (g := BitVec.setWidth 32)
    · intro u d hu
      obtain ⟨c', hc', hw, heq⟩ := writeAt_eq_some.mp hu
      obtain ⟨haddr, rfl⟩ := Prod.mk.inj heq
      have hfit' := hfits c' (List.mem_of_getElem? hc')
      apply writeAt_eq_some.mpr
      refine ⟨c', hc', hw, ?_⟩
      exact Prod.ext (addr_inj hfit' hfit haddr) (setWidth_extractLsb' hfit'.2).symm
    · intro u d' hu
      obtain ⟨c', hc', hw, heq⟩ := writeAt_eq_some.mp hu
      obtain ⟨haddr, _⟩ := Prod.mk.inj heq
      refine ⟨c'.reqWdata q, writeAt_eq_some.mpr ⟨c', hc', hw, ?_⟩⟩
      rw [Call.reqAddr, haddr]

end Answers

section Progress

/-- As long as no response is offered, the shim works on the request in flight. -/
theorem InFlight.work {s : Shim.State q} {b : Bus} {c : Call} (h : InFlight s c) (hs : Calm s)
    (ha : s.engine.respActive = false) : s.work b ≠ 0 := by
  intro hzero
  have hno := Shim.State.noWork_of_work hzero
  cases hp : s.pendingValid with
  | true =>
      have hbusy := Shim.State.slot_busy_of_no_work hno hp hs.handshake
      rw [h.waiting hp] at hbusy
      cases hbusy
  | false =>
      have hfree := Engine.State.slot_free_of_no_work hno.counting hno.offers ha s.pendingTag
      rw [((h.accepted hp).2 s.pendingTag).mpr rfl] at hfree
      cases hfree

variable (x : Undefined q) (prog : Program)

/-- The access that comes after `pc`. -/
def Pc.next : Pc → Pc
  | .reqAddr => .reqWdata
  | .reqWdata => .reqFire
  | .reqFire => .poll
  | .poll => .respRdata
  | .respRdata => .respAck
  | .respAck => .reqAddr

theorem pc_advance {d : State} {v : BitVec 32} (h : d.pc ≠ .poll) :
    (d.advance v).pc = d.pc.next := by
  rw [State.advance]
  cases hd : d.pc with
  | poll => exact absurd hd h
  | _ => rfl

/-- An access that never repeats is made once its idle cycles have passed. -/
theorem leadsTo_of_access {k k' : ℕ} {pc pc' : Pc} (hk : k < prog.calls.length)
    (h : ∀ (d : State) (v : BitVec 32), d.results.length = k → d.pc = pc →
      (d.advance v).results.length = k' ∧ (d.advance v).pc = pc') :
    LeadsTo (At x prog k pc) (At x prog k' pc') := by
  apply LeadsTo.of_variant fun t => (session x prog t).driver.wait
  rintro t ⟨hlen, hpc⟩
  rw [At, At, session_succ]
  rcases (session_orderly x prog t).step_cases with
    ⟨hc, _⟩ | ⟨_, _, hw, hstep⟩ | ⟨_, _, _, hstep⟩
  · rw [State.call, hlen, List.getElem?_eq_none_iff] at hc
    exact absurd hk (Nat.not_lt_of_le hc)
  · right
    rw [hstep]
    exact ⟨⟨hlen, hpc⟩, Nat.sub_one_lt hw⟩
  · left
    rw [hstep]
    exact h _ _ hlen hpc

theorem next_leadsTo {k : ℕ} {pc : Pc} (hk : k < prog.calls.length) (hpoll : pc ≠ .poll)
    (hack : pc ≠ .respAck) : LeadsTo (At x prog k pc) (At x prog k pc.next) := by
  apply leadsTo_of_access x prog hk
  rintro d v hlen rfl
  rw [results_advance hack]
  exact ⟨hlen, pc_advance hpoll⟩

theorem ack_leadsTo {k : ℕ} (hk : k < prog.calls.length) :
    LeadsTo (At x prog k .respAck) (At x prog (k + 1) .reqAddr) := by
  apply leadsTo_of_access x prog hk
  intro d v hlen hpc
  rw [advance_of_ack hpc, List.length_append, hlen]
  exact ⟨rfl, rfl⟩

/-- Every poll loop ends. -/
theorem poll_leadsTo (k : ℕ) : LeadsTo (At x prog k .poll) (At x prog k .respRdata) := by
  apply LeadsTo.of_variant fun t =>
    toLex ((session x prog t).shim.debt, (session x prog t).driver.wait)
  rintro t ⟨hlen, hpc⟩
  have ho := session_orderly x prog t
  have hpay : ∀ b : Bus, b.rstn = true → b.avsWrite = false →
      ((session x prog t).shim.edge b).debt + (session x prog t).shim.work b ≤
        (session x prog t).shim.debt := by
    intro b hrst hw
    exact Shim.State.debt_edge ho.offer (holding_of_no_write hrst hw)
  rw [At, At, session_succ, Prod.Lex.toLex_lt_toLex]
  rcases ho.step_cases with ⟨hc, _⟩ | ⟨_, _, hw, hstep⟩ | ⟨c, hc, _, hstep⟩
  · rw [(ho.done hc).1] at hpc
    cases hpc
  · have hle := hpay Bus.idle rfl rfl
    right
    rw [hstep]
    refine ⟨⟨hlen, hpc⟩, ?_⟩
    dsimp only
    omega
  · have hphase := ho.phase c hc
    rw [hpc] at hphase
    rw [hstep, hpc]
    cases ha : (session x prog t).shim.engine.respActive with
    | true =>
        left
        rw [advance_of_valid hpc (poll_ne_zero ha)]
        exact ⟨hlen, rfl⟩
    | false =>
        right
        have hle := hpay (c.access .poll).bus rfl rfl
        have hwork := InFlight.work (b := (c.access .poll).bus) hphase ho.calm ha
        rw [advance_of_invalid hpc (poll_eq_zero ha)]
        refine ⟨⟨hlen, hpc⟩, ?_⟩
        dsimp only
        omega

/-- Every call leads to the next one. -/
theorem call_leadsTo {k : ℕ} (hk : k < prog.calls.length) :
    LeadsTo (At x prog k .reqAddr) (At x prog (k + 1) .reqAddr) :=
  calc
    LeadsTo (At x prog k .reqAddr) (At x prog k .reqWdata) :=
      next_leadsTo x prog hk (by decide) (by decide)
    LeadsTo _ (At x prog k .reqFire) := next_leadsTo x prog hk (by decide) (by decide)
    LeadsTo _ (At x prog k .poll) := next_leadsTo x prog hk (by decide) (by decide)
    LeadsTo _ (At x prog k .respRdata) := poll_leadsTo x prog k
    LeadsTo _ (At x prog k .respAck) := next_leadsTo x prog hk (by decide) (by decide)
    LeadsTo _ (At x prog (k + 1) .reqAddr) := ack_leadsTo x prog hk

/-- Every program comes to its end. -/
theorem session_terminates : ∃ T, At x prog prog.calls.length .reqAddr T := by
  have hchain : LeadsTo (At x prog 0 .reqAddr) (At x prog prog.calls.length .reqAddr) :=
    LeadsTo.chain (S := fun k => At x prog k .reqAddr) fun k hk => call_leadsTo x prog hk
  obtain ⟨T, _, hT⟩ := hchain 0 ⟨rfl, rfl⟩
  exact ⟨T, hT⟩

end Progress

/-- `do_req` implements memory: for every program no write is ever stalled, every
poll loop ends, all calls return, and each read call returns the data of the last
preceding write call to its address. -/
theorem do_req_implements_memory (x : Undefined q) (prog : Program) :
    (∀ t, ¬ Stalled x prog t) ∧
      (∀ k, LeadsTo (At x prog k .poll) (At x prog k .respRdata)) ∧
      (∃ T, (session x prog T).driver.results.length = prog.calls.length) ∧
      ∀ t k c v, prog.calls[k]? = some c → c.isWrite = false →
        (session x prog t).driver.results[k]? = some v → ReturnsLast q prog.calls k c v := by
  refine ⟨?_, poll_leadsTo x prog, ?_, ?_⟩
  · intro t hstall
    rw [Stalled, sessionBus, (session_orderly x prog t).not_stalled] at hstall
    cases hstall
  · obtain ⟨T, hlen, _⟩ := session_terminates x prog
    exact ⟨T, hlen⟩
  · intro t k c v hc hread hv
    rw [(session_answered x prog t).results k c v hc hread hv]
    exact returnsLast_readWord hc

end CxlLite.Driver
