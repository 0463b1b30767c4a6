import CxlLite.Driver.DoReq
import CxlLite.Hps.Transaction
import CxlLite.Mmio.Logic

/-!
# The host programs' routines

The shim behind the lightweight bridge is a memory-mapped device, and the C
routines are programs over its registers. A wall-clock timeout is the number of
polls that it leaves time for; a program that runs out of polls exits.
-/

namespace CxlLite.Hps

open Shim

variable {q : ShimParams}

/-- A program over the registers of the shim. -/
abbrev Prog (α : Type) := Mmio.Prog (BitVec 5) (BitVec 32) α

section Routines

/-- The bus cycle of an access, or of none. -/
def onBus : Option (Mmio.Access (BitVec 5) (BitVec 32)) → Bus
  | none => Bus.idle
  | some (.write r v) => ⟨true, r, true, v⟩
  | some (.read r) => { Bus.idle with avsAddress := r }

/-- The shim as the processor sees it. -/
def bridge (q : ShimParams) : Mmio.Device (Shim.State q) (BitVec 5) (BitVec 32) where
  cycle x s := s.step (onBus x)
  stalls x s := s.avsWaitrequest (onBus (some x))
  data x s := s.avsReaddata (onBus (some x))

/-- `STATUS & STATUS_VALID_MASK`. -/
def statusValid (v : BitVec 32) : Bool := v &&& Driver.statusValidMask != 0

/-- `STATUS & STATUS_IS_DATA_MASK`. -/
def statusIsData (v : BitVec 32) : Bool := v &&& 2 != 0

/-- `BI_STATUS & BI_STATUS_PENDING_MASK`. -/
def biStatusPending (v : BitVec 32) : Bool := v &&& 1 != 0

def fire (r : Request) : Prog PUnit := do
  .write addrReqAddr r.addr
  .write addrReqWdata r.wdata
  .write addrReqFire r.fireWord

/-- `while (!(shim[REG_STATUS] & STATUS_VALID_MASK))`, also `wait_status`. -/
def pollStatus (polls : ℕ) : Prog (BitVec 32) := .poll addrStatus statusValid polls

/-- `wait_valid`, also `poll_status_valid`. -/
def waitValid (polls : ℕ) : Prog (BitVec 32) := do
  let _ ← pollStatus polls
  .read addrStatus

def doReq (polls : ℕ) (isWrite : Bool) (addr wdata : BitVec 32) : Prog (BitVec 32) := do
  fire ⟨isWrite, addr, 1, wdata⟩
  let _ ← pollStatus polls
  let rdata ← .read addrRespRdata
  .write addrRespAck 1
  return rdata

/-- `timed_access`, without the clock readings. -/
def timedAccess (polls : ℕ) (addr tag : BitVec 32) : Prog (BitVec 32) := do
  fire ⟨false, addr, tag, 0⟩
  let _ ← pollStatus polls
  let sink ← .read addrRespRdata
  .write addrRespAck 1
  return sink

/-- The body of the write loop of `host_driver_linux_extended_test`: `s` and `tag`. -/
def checkedWrite (polls : ℕ) (r : Request) : Prog (BitVec 32 × BitVec 32) := do
  fire r
  let s ← pollStatus polls
  let tag ← .read addrRespTag
  .write addrRespAck 1
  return (s, tag)

/-- The body of its read loop: `s`, `tag` and `rdata`. A read leaves `REQ_WDATA` alone. -/
def checkedRead (polls : ℕ) (r : Request) : Prog (BitVec 32 × BitVec 32 × BitVec 32) := do
  .write addrReqAddr r.addr
  .write addrReqFire r.fireWord
  let s ← pollStatus polls
  let tag ← .read addrRespTag
  let rdata ← .read addrRespRdata
  .write addrRespAck 1
  return (s, tag, rdata)

def biasWrite (addr : BitVec 32) (hostBiased : Bool) : Prog PUnit := do
  .write addrBiasAddr addr
  .write addrBiasSet (if hostBiased then 1 else 0)

def biasRead (addr : BitVec 32) : Prog (BitVec 32) := do
  .write addrBiasAddr addr
  let v ← .read addrBiasGet
  return v &&& 1

/-- `while (!(shim[REG_BI_STATUS] & BI_STATUS_PENDING_MASK))`. -/
def pollBiStatus (polls : ℕ) : Prog (BitVec 32) := .poll addrBiStatus biStatusPending polls

/-- `test_phase4h` up to its last register access: `bi_addr`, the result of
`bias_read`, `status` and `tag`. -/
def handshake (polls : ℕ) (r : Request) : Prog (BitVec 32 × BitVec 32 × BitVec 32 × BitVec 32) := do
  biasWrite r.addr true
  fire r
  let _ ← pollBiStatus polls
  let biAddr ← .read addrBiReqAddr
  .write addrBiReqAck 1
  .write addrBiRspSend 1
  let bias ← biasRead r.addr
  let status ← waitValid polls
  let tag ← .read addrRespTag
  .write addrRespAck 1
  return (biAddr, bias, status, tag)

def hits : Prog (BitVec 32) := .read addrCacheHits

def misses : Prog (BitVec 32) := .read addrCacheMiss

end Routines

section Device

variable {s : Shim.State q} {X : Prop}

theorem onBus_rstn (x : Option (Mmio.Access (BitVec 5) (BitVec 32))) : (onBus x).rstn = true := by
  cases x with
  | none => rfl
  | some x => cases x <;> rfl

theorem bridge_cycle (x : Option (Mmio.Access (BitVec 5) (BitVec 32))) :
    (bridge q).cycle x s = s.edge (onBus x) := Shim.State.step_of_rstn (onBus_rstn x)

theorem bridge_data (r : BitVec 5) : (bridge q).data (.read r) s = s.readReg r := rfl

theorem bridge_ready_read (r : BitVec 5) : (bridge q).stalls (.read r) s = false := rfl

/-- Only a `REQ_FIRE` is held up, and only by a pending request. -/
theorem bridge_ready_write {r : BitVec 5} {v : BitVec 32}
    (h : r = addrReqFire → s.pendingValid = false) : (bridge q).stalls (.write r v) s = false := by
  change ((⟨true, r, true, v⟩ : Bus).writeFire && s.pendingValid) = false
  by_cases hr : r = addrReqFire
  · rw [h hr, Bool.and_false]
  · simp [Bus.writeFire, Bus.writes, hr]

theorem writes_onBus {r r' : BitVec 5} {v : BitVec 32} (h : r ≠ r') :
    (onBus (some (.write r v))).writes r' = false :=
  Bus.writes_eq_false (b := onBus (some (.write r v))) (r := r) (by simp [onBus, Bus.writes]) h

/-- A write to none of the registers that a request in service depends on. -/
theorem undisturbing_write {r : BitVec 5} {v : BitVec 32}
    (h : ∀ a ∈ [addrReqAddr, addrReqWdata, addrReqFire, addrRespAck, addrBiasSet, addrCacheBypass],
      r ≠ a) : Undisturbing (onBus (some (.write r v))) := by
  constructor
  · rfl
  all_goals exact writes_onBus (h _ (by simp))

theorem passive_write {r : BitVec 5} {v : BitVec 32}
    (h : ∀ a ∈ [addrReqFire, addrBiasSet, addrCacheBypass], r ≠ a) :
    Passive (onBus (some (.write r v))) := by
  constructor
  · rfl
  all_goals exact writes_onBus (h _ (by simp))

end Device

end CxlLite.Hps
