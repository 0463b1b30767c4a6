import CxlLite.Shim.Run

/-!
# The driver's `do_req`

One thread runs `do_req` for each call of its program in turn. Any number of
idle cycles may pass before a register access, and a write is held on the bus
while `avs_waitrequest` is up. The timeout of the poll loop is left out.
-/

namespace CxlLite.Driver

open Shim Synchronous

/-- The arguments of one call of `do_req`. -/
structure Call where
  isWrite : Bool
  addr : BitVec 32
  wdata : BitVec 32

/-- The register access that `do_req` makes next. -/
inductive Pc where
  | reqAddr
  | reqWdata
  | reqFire
  | poll
  | respRdata
  | respAck
  deriving DecidableEq

/-- The calls of a program, and the number of idle cycles before each of its
register accesses. -/
structure Program where
  calls : List Call
  gaps : ℕ → ℕ

/-- `STATUS_VALID_MASK`. -/
def statusValidMask : BitVec 32 := 1

/-- An access to the register file through the bridge. -/
inductive Access where
  | write (r : BitVec 5) (v : BitVec 32)
  | read (r : BitVec 5)

def Access.bus : Access → Bus
  | .write r v => ⟨true, r, true, v⟩
  | .read r => { Bus.idle with avsAddress := r }

namespace Call

variable (c : Call)

/-- The `REQ_FIRE` word, with the fixed tag 1. -/
def fireWord : BitVec 32 := 1#32 <<< 4 ||| if c.isWrite then 1 else 0

def access : Pc → Access
  | .reqAddr => .write addrReqAddr c.addr
  | .reqWdata => .write addrReqWdata c.wdata
  | .reqFire => .write addrReqFire c.fireWord
  | .poll => .read addrStatus
  | .respRdata => .read addrRespRdata
  | .respAck => .write addrRespAck 1

end Call

/-- The driver thread: its place in `do_req`, the idle cycles left, the number of
accesses made, the local `rdata`, and what the finished calls returned. -/
structure State where
  pc : Pc
  wait : ℕ
  accesses : ℕ
  rdata : BitVec 32
  results : List (BitVec 32)

namespace State

variable (prog : Program) (d : State)

/-- The call in progress, if any is left. -/
def call : Option Call := prog.calls[d.results.length]?

/-- What the driver puts on the bus in this cycle. -/
def bus : Bus :=
  match d.call prog, d.wait with
  | some c, 0 => (c.access d.pc).bus
  | _, _ => Bus.idle

/-- `do_req` after its access, with `readdata` on the bus. -/
def advance (readdata : BitVec 32) : State :=
  match d.pc with
  | .reqAddr => { d with pc := .reqWdata }
  | .reqWdata => { d with pc := .reqFire }
  | .reqFire => { d with pc := .poll }
  | .poll => if readdata &&& statusValidMask = 0 then d else { d with pc := .respRdata }
  | .respRdata => { d with rdata := readdata, pc := .respAck }
  | .respAck => { d with results := d.results ++ [d.rdata], pc := .reqAddr }

/-- One cycle of the driver. -/
def step (waitrequest : Bool) (readdata : BitVec 32) : State :=
  match d.call prog, d.wait with
  | none, _ => d
  | some _, n + 1 => { d with wait := n }
  | some _, 0 =>
      if waitrequest then d
      else
        { d.advance readdata with
          wait := prog.gaps (d.accesses + 1)
          accesses := d.accesses + 1 }

end State

/-- The driver before its first call. -/
def start (prog : Program) : State where
  pc := .reqAddr
  wait := prog.gaps 0
  accesses := 0
  rdata := 0
  results := []

/-- The driver together with the shim that it drives. -/
structure Session (q : ShimParams) where
  driver : State
  shim : Shim.State q

variable {q : ShimParams}

/-- One cycle of both sides. -/
def Session.step (prog : Program) (S : Session q) : Session q where
  driver := S.driver.step prog (S.shim.avsWaitrequest (S.driver.bus prog))
    (S.shim.avsReaddata (S.driver.bus prog))
  shim := S.shim.step (S.driver.bus prog)

/-- Driver and shim as one clocked machine without inputs. -/
def machine (q : ShimParams) (prog : Program) : Clocked (Session q) Unit :=
  ⟨fun S _ => S, fun S _ => S.step prog⟩

section Runs

variable (x : Undefined q) (prog : Program)

/-- The driver and the shim in each cycle of the run of a program from power-on. -/
def session : ℕ → Session q := (machine q prog).run ⟨start prog, powerOn x⟩ fun _ => ()

/-- The bus that the driver produces. -/
def sessionBus (t : ℕ) : Bus := (session x prog t).driver.bus prog

theorem session_succ (t : ℕ) : session x prog (t + 1) = (session x prog t).step prog := rfl

end Runs

section Bus

variable {prog : Program} {d : State} {c : Call}

theorem State.bus_of_done (h : d.call prog = none) : d.bus prog = Bus.idle := by
  rw [State.bus, h]

theorem State.bus_of_wait (h : d.wait ≠ 0) : d.bus prog = Bus.idle := by
  rw [State.bus]
  split
  · exact absurd ‹_› h
  · rfl

theorem State.bus_of_access (h : d.call prog = some c) (hw : d.wait = 0) :
    d.bus prog = (c.access d.pc).bus := by
  rw [State.bus, h, hw]
  rfl

/-- The driver idles or makes the access of its call. -/
theorem State.bus_cases (prog : Program) (d : State) :
    d.bus prog = Bus.idle ∨
      ∃ c, d.call prog = some c ∧ d.wait = 0 ∧ d.bus prog = (c.access d.pc).bus := by
  cases hc : d.call prog with
  | none => exact Or.inl (State.bus_of_done hc)
  | some c =>
      by_cases hw : d.wait = 0
      · exact Or.inr ⟨c, rfl, hw, State.bus_of_access hc hw⟩
      · exact Or.inl (State.bus_of_wait hw)

theorem State.step_of_done {w : Bool} {v : BitVec 32} (h : d.call prog = none) :
    d.step prog w v = d := by
  rw [State.step, h]

theorem State.step_of_wait {w : Bool} {v : BitVec 32} (h : d.call prog = some c)
    (hw : d.wait ≠ 0) : d.step prog w v = { d with wait := d.wait - 1 } := by
  obtain ⟨n, hn⟩ := Nat.exists_eq_succ_of_ne_zero hw
  rw [State.step, h, hn]
  rfl

theorem State.step_of_access {v : BitVec 32} (h : d.call prog = some c) (hw : d.wait = 0) :
    d.step prog false v =
      { d.advance v with
        wait := prog.gaps (d.accesses + 1)
        accesses := d.accesses + 1 } := by
  rw [State.step, h, hw]
  rfl

/-- The driver leaves reset, the bias table and the bypass control alone. -/
structure Ordinary (b : Bus) : Prop where
  rstn : b.rstn = true
  bias : b.writeBias = false
  bypass : b.writeBypass = false

theorem State.bus_ordinary (prog : Program) (d : State) : Ordinary (d.bus prog) := by
  rcases d.bus_cases prog with h | ⟨c, _, _, h⟩
  · rw [h]
    exact ⟨rfl, rfl, rfl⟩
  · rw [h]
    cases d.pc <;> exact ⟨rfl, rfl, rfl⟩

end Bus

section Component

variable (x : Undefined q) (prog : Program)

/-- The shim of a session runs as a shim of its own on the bus of the driver. -/
theorem session_shim (t : ℕ) :
    (session x prog t).shim = run x (sessionBus x prog) t := by
  apply (machine q prog).run_component (Shim.machine q) Session.shim
    (fun S _ => S.driver.bus prog)
  · intro S _ S₀
    exact (Shim.State.settle_of_rstn (S₀.driver.bus_ordinary prog).rstn).symm
  · intro S _
    rfl

end Component

end CxlLite.Driver
