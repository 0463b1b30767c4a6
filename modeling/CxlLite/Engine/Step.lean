import CxlLite.Engine.State
import CxlLite.Synchronous.Clocked
import CxlLite.Synchronous.FirstMatch

/-!
# One cycle of `cxl_mem_protocol_engine`

The combinational wires are functions of the current state and inputs. Each
clocked block has its own next-value function, and `edge` collects them.
While `rst_n` is low the resettable registers hold their reset values; the
slot, cache and memory arrays have no reset and keep being clocked.
-/

namespace CxlLite.Engine

open Synchronous

variable {p : Params}

namespace State

variable (s : State p) (i : Inputs p)

section BackInvalidate

def biasRdData : Bool := s.bias i.biasAddr

def biasQueryRdData : Bool := s.bias i.m2sAddr

def wantBi : Bool := s.biState == .idle && i.m2sValid && s.biasQueryRdData i

def biActive : Bool := s.biState != .idle

def biReqValid : Bool := s.biState == .req

/-- The sequencer stores no address: the live request address is shown. -/
def biReqAddr (_ : State p) (i : Inputs p) : p.Addr := i.m2sAddr

def biRspReady : Bool := s.biState == .waitRsp

def biFlipNow : Bool := s.biState == .waitRsp && i.biRspValid

def biStateNext : BiState :=
  match s.biState with
  | .idle => if s.wantBi i then .req else .idle
  | .req => if s.biReqValid && i.biReqReady then .waitRsp else .req
  | .waitRsp => if i.biRspValid then .idle else .waitRsp

/-- The flip of the sequencer takes the single write port from the debug write. -/
def biasNext : BiasTable p :=
  s.bias.write (if s.biFlipNow i then true else i.biasWrEn)
    (if s.biFlipNow i then i.m2sAddr else i.biasAddr)
    (if s.biFlipNow i then false else i.biasWrData)

end BackInvalidate

section CacheLookup

/-- `cache_hit`, for any address. -/
def cacheHit (a : p.Addr) : Bool :=
  (s.cache (idxField a)).valid && (s.cache (idxField a)).tag == tagField a

def cacheHitEff : Bool := s.cacheHit i.m2sAddr && !i.cacheBypassEn

def needEvictWriteback : Bool :=
  !i.cacheBypassEn && (s.cache (idxField i.m2sAddr)).valid &&
    (s.cache (idxField i.m2sAddr)).dirty && !s.cacheHit i.m2sAddr

def wantFlush : Bool :=
  s.flushState == .idle && s.biState == .idle && !s.biasQueryRdData i && i.m2sValid &&
    s.needEvictWriteback i

def flushStateNext : FlushState :=
  match s.flushState with
  | .idle => if s.wantFlush i then .active else .idle
  | .active => .idle

def doFlushWriteThisCycle : Bool := s.flushState == .active

/-- The victim's address: its stored tag and the index of the live request. -/
def flushAddr : p.Addr :=
  lineAddr (s.cache (idxField i.m2sAddr)).tag (idxField i.m2sAddr)

end CacheLookup

section Arbitration

/-- The slot of `t` is ready to be offered. -/
def eligible (t : p.Tag) : Bool := (s.slot t).valid && (s.slot t).cnt == 0

/-- `(arb_found, arb_tag)`: the loop over all tags from 0 upwards. -/
def arb : Bool × p.Tag :=
  firstMatch s.eligible 0 ((List.range p.numTags).map (BitVec.ofNat p.tagW))

def respActiveNext : Bool :=
  if !s.respActive then s.arb.1 else if i.s2mReady then false else true

def respTagNext : p.Tag := if !s.respActive && s.arb.1 then s.arb.2 else s.respTag

def respConsumedThisCycle : Bool := s.respActive && i.s2mReady

end Arbitration

section AcceptPath

def m2sReady : Bool :=
  !(s.slot i.m2sTag).valid && s.biState == .idle && !s.biasQueryRdData i &&
    s.flushState == .idle && !s.needEvictWriteback i

def acceptThisCycle : Bool := i.m2sValid && s.m2sReady i

/-- The read data captured by an accepted read. -/
def readCapture : p.Data :=
  if s.cacheHitEff i then (s.cache (idxField i.m2sAddr)).data else s.mem i.m2sAddr

/-- The slot that an accepted request leaves in place of `σ`. -/
def acceptSlot (σ : Slot p) : Slot p where
  valid := true
  isWrite := i.m2sIsWrite
  rdata := if !i.m2sIsWrite then s.readCapture i else σ.rdata
  cnt := if i.m2sIsWrite || s.cacheHitEff i then 0 else BitVec.ofNat p.cntW p.readExtraLatency

def slotNext (t : p.Tag) : Slot p :=
  if s.acceptThisCycle i && i.m2sTag == t then s.acceptSlot i (s.slot t)
  else if s.respConsumedThisCycle i && s.respTag == t then { s.slot t with valid := false }
  else if (s.slot t).valid && (s.slot t).cnt != 0 then
    { s.slot t with cnt := (s.slot t).cnt - 1 }
  else s.slot t

end AcceptPath

section Storage

/-- The line that an accepted request leaves at its index. -/
def acceptLine : CacheLine p :=
  let line := s.cache (idxField i.m2sAddr)
  { valid := true
    tag := tagField i.m2sAddr
    data := if i.m2sIsWrite then i.m2sWdata
      else if !s.cacheHit i.m2sAddr then s.mem i.m2sAddr else line.data
    dirty := if i.m2sIsWrite then true
      else if !s.cacheHit i.m2sAddr then false else line.dirty }

def cacheNext : p.Idx → CacheLine p :=
  if s.doFlushWriteThisCycle then
    Function.update s.cache (idxField i.m2sAddr)
      { s.cache (idxField i.m2sAddr) with dirty := false }
  else if s.acceptThisCycle i && !i.cacheBypassEn then
    Function.update s.cache (idxField i.m2sAddr) (s.acceptLine i)
  else s.cache

def memNext : p.Addr → p.Data :=
  if s.doFlushWriteThisCycle then
    Function.update s.mem (s.flushAddr i) (s.cache (idxField i.m2sAddr)).data
  else if s.acceptThisCycle i && i.cacheBypassEn && i.m2sIsWrite then
    Function.update s.mem i.m2sAddr i.m2sWdata
  else s.mem

def dbgCacheHitsNext : BitVec 32 :=
  if s.acceptThisCycle i && s.cacheHitEff i then s.dbgCacheHits + 1 else s.dbgCacheHits

def dbgCacheMissesNext : BitVec 32 :=
  if s.acceptThisCycle i && !s.cacheHitEff i then s.dbgCacheMisses + 1 else s.dbgCacheMisses

end Storage

section Outputs

def s2mValid : Bool := s.respActive

def s2mTag : p.Tag := s.respTag

def s2mIsData : Bool := !(s.slot s.respTag).isWrite

def s2mRdata : p.Data := (s.slot s.respTag).rdata

end Outputs

section Clock

/-- The registers with an asynchronous reset take their reset values. -/
def reset : State p :=
  { s with
    biState := .idle
    bias := fun _ => false
    flushState := .idle
    respActive := false
    respTag := 0
    dbgCacheHits := 0
    dbgCacheMisses := 0 }

/-- One clock edge with `rst_n` high. -/
def edge : State p where
  biState := s.biStateNext i
  bias := s.biasNext i
  flushState := s.flushStateNext i
  cache := s.cacheNext i
  mem := s.memNext i
  slot := s.slotNext i
  respActive := s.respActiveNext i
  respTag := s.respTagNext
  dbgCacheHits := s.dbgCacheHitsNext i
  dbgCacheMisses := s.dbgCacheMissesNext i

/-- `negedge rst_n` acts before anything is clocked. -/
def settle : State p := if i.rstN then s else s.reset

/-- One clock edge. -/
def step : State p := if i.rstN then s.edge i else (s.edge i).reset

end Clock

end State

/-- Power-on after the initial reset: arrays as in the `initial` block. -/
def powerOn (p : Params) : State p where
  biState := .idle
  bias := fun _ => false
  flushState := .idle
  cache := fun _ => { valid := false, dirty := false, tag := 0, data := 0 }
  mem := fun _ => 0
  slot := fun _ => { valid := false, isWrite := false, rdata := 0, cnt := 0 }
  respActive := false
  respTag := 0
  dbgCacheHits := 0
  dbgCacheMisses := 0

/-- The engine as a clocked machine. -/
def machine (p : Params) : Clocked (State p) (Inputs p) := ⟨State.settle, State.step⟩

/-- The settled engine state in each cycle of a run from power-on. -/
def run (inp : ℕ → Inputs p) : ℕ → State p := (machine p).run (powerOn p) inp

end CxlLite.Engine
