import CxlLite.Engine.Step
import CxlLite.Shim.State

/-!
# One cycle of `cxl_avalon_shim`

The shim drives the engine from its registers and from the bus write of the
same cycle. Reads have no side effect, so `avsReaddata` is a function of the
settled state.
-/

namespace CxlLite.Shim

open Engine Synchronous

variable {q : ShimParams}

namespace State

variable (s : State q) (b : Bus)

section Wires

/-- The engine instance's inputs. -/
def engineInputs : Inputs q.engine where
  rstN := b.rstn
  m2sValid := s.pendingValid
  m2sIsWrite := s.pendingIsWrite
  m2sAddr := s.reqAddr
  m2sTag := s.pendingTag
  m2sWdata := s.reqWdata
  s2mReady := b.writeAck
  biasWrEn := b.writeBias
  biasAddr := s.biasAddr
  biasWrData := b.writeBit
  biReqReady := b.writeBiAck
  biRspValid := b.writeBiRsp
  cacheBypassEn := s.cacheBypassEn

def m2sReady : Bool := s.engine.m2sReady (s.engineInputs b)

def avsWaitrequest : Bool := b.writeFire && s.pendingValid

end Wires

section Registers

def reqAddrNext : q.engine.Addr :=
  if b.writes addrReqAddr then b.writeAddr q else s.reqAddr

def reqWdataNext : q.engine.Data :=
  if b.writes addrReqWdata then b.writeData q else s.reqWdata

def biasAddrNext : q.engine.Addr :=
  if b.writes addrBiasAddr then b.writeAddr q else s.biasAddr

def cacheBypassEnNext : Bool := if b.writeBypass then b.writeBit else s.cacheBypassEn

def pendingValidNext : Bool :=
  if b.writeFire && !s.pendingValid then true
  else if s.pendingValid && s.m2sReady b then false
  else s.pendingValid

def pendingIsWriteNext : Bool :=
  if b.writeFire && !s.pendingValid then b.writeBit else s.pendingIsWrite

def pendingTagNext : q.engine.Tag :=
  if b.writeFire && !s.pendingValid then b.writeTag q else s.pendingTag

def seenRequestNext : Bool := if s.pendingValid && s.m2sReady b then true else s.seenRequest

def seenResponseNext : Bool := if s.engine.s2mValid then true else s.seenResponse

end Registers

section Outputs

def avsReaddata : BitVec 32 :=
  if b.avsAddress = addrStatus then
    0#30 ++ BitVec.ofBool s.engine.s2mIsData ++ BitVec.ofBool s.engine.s2mValid
  else if b.avsAddress = addrRespTag then s.engine.s2mTag.setWidth 32
  else if b.avsAddress = addrRespRdata then s.engine.s2mRdata.setWidth 32
  else if b.avsAddress = addrBiasGet then
    0#31 ++ BitVec.ofBool (s.engine.biasRdData (s.engineInputs b))
  else if b.avsAddress = addrBiStatus then
    0#30 ++ BitVec.ofBool s.engine.biActive ++ BitVec.ofBool s.engine.biReqValid
  else if b.avsAddress = addrBiReqAddr then
    (s.engine.biReqAddr (s.engineInputs b)).setWidth 32
  else if b.avsAddress = addrCacheHits then s.engine.dbgCacheHits
  else if b.avsAddress = addrCacheMiss then s.engine.dbgCacheMisses
  else if b.avsAddress = addrCacheBypass then 0#31 ++ BitVec.ofBool s.cacheBypassEn
  else 0

def dbgHeartbeat : Bool := s.hbCounter.getLsbD 25

def dbgSeenRequest : Bool := s.seenRequest

def dbgSeenResponse : Bool := s.seenResponse

end Outputs

section Clock

/-- `pending_is_write_r` and `pending_tag_r` have no reset value. -/
def reset : State q :=
  { s with
    reqAddr := 0
    reqWdata := 0
    biasAddr := 0
    cacheBypassEn := false
    pendingValid := false
    engine := s.engine.reset
    hbCounter := 0
    seenRequest := false
    seenResponse := false }

/-- One clock edge with `rstn` high. -/
def edge : State q where
  reqAddr := s.reqAddrNext b
  reqWdata := s.reqWdataNext b
  biasAddr := s.biasAddrNext b
  cacheBypassEn := s.cacheBypassEnNext b
  pendingValid := s.pendingValidNext b
  pendingIsWrite := s.pendingIsWriteNext b
  pendingTag := s.pendingTagNext b
  engine := s.engine.step (s.engineInputs b)
  hbCounter := s.hbCounter + 1
  seenRequest := s.seenRequestNext b
  seenResponse := s.seenResponseNext

/-- `negedge rstn` acts before anything is clocked. -/
def settle : State q := if b.rstn then s else s.reset

/-- One clock edge. In reset the arrays of the engine are still clocked. -/
def step : State q :=
  if b.rstn then s.edge b else { s.reset with engine := s.engine.step (s.engineInputs b) }

end Clock

end State

/-- Power-on after the initial reset. -/
def powerOn (x : Undefined q) : State q where
  reqAddr := 0
  reqWdata := 0
  biasAddr := 0
  cacheBypassEn := false
  pendingValid := false
  pendingIsWrite := x.pendingIsWrite
  pendingTag := x.pendingTag
  engine := Engine.powerOn q.engine
  hbCounter := 0
  seenRequest := false
  seenResponse := false

/-- The shim as a clocked machine. -/
def machine (q : ShimParams) : Clocked (State q) Bus := ⟨State.settle, State.step⟩

/-- The settled state of the shim in each cycle of a run from power-on. -/
def run (x : Undefined q) (bus : ℕ → Bus) : ℕ → State q := (machine q).run (powerOn x) bus

end CxlLite.Shim
