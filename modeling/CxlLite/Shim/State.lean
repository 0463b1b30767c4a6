import CxlLite.Engine.State

/-!
# Registers and bus of `cxl_avalon_shim`

The shim instantiates the engine at its default `READ_EXTRA_LATENCY` and
`CACHE_IDX_W`. `avs_read` is left out, since the source does not consume it.
-/

namespace CxlLite

/-- Parameters of `cxl_avalon_shim`, with the widths that its register fields need. -/
structure ShimParams where
  addrW : ℕ
  dataW : ℕ
  tagW : ℕ
  cacheIdxW_lt : 4 < addrW
  addrW_le : addrW ≤ 32
  dataW_le : dataW ≤ 32
  tagW_add_le : tagW + 4 ≤ 32

/-- Parameters of the engine instance. -/
abbrev ShimParams.engine (q : ShimParams) : Params where
  addrW := q.addrW
  dataW := q.dataW
  tagW := q.tagW
  readExtraLatency := 3
  cacheIdxW := 4
  one_le_cacheIdxW := by omega
  cacheIdxW_lt := q.cacheIdxW_lt

namespace Shim

section RegisterMap

def addrReqAddr : BitVec 5 := 0
def addrReqWdata : BitVec 5 := 1
def addrReqFire : BitVec 5 := 2
def addrStatus : BitVec 5 := 3
def addrRespTag : BitVec 5 := 4
def addrRespRdata : BitVec 5 := 5
def addrRespAck : BitVec 5 := 6
def addrBiasAddr : BitVec 5 := 7
def addrBiasSet : BitVec 5 := 8
def addrBiasGet : BitVec 5 := 9
def addrBiStatus : BitVec 5 := 10
def addrBiReqAddr : BitVec 5 := 11
def addrBiReqAck : BitVec 5 := 12
def addrBiRspSend : BitVec 5 := 13
def addrCacheHits : BitVec 5 := 14
def addrCacheMiss : BitVec 5 := 15
def addrCacheBypass : BitVec 5 := 16

end RegisterMap

/-- The bus inputs of one cycle. -/
structure Bus where
  rstn : Bool
  avsAddress : BitVec 5
  avsWrite : Bool
  avsWritedata : BitVec 32

namespace Bus

/-- A released cycle without a write. -/
def idle : Bus := ⟨true, 0, false, 0⟩

variable (b : Bus)

/-- A write to register `r` is on the bus. -/
def writes (r : BitVec 5) : Bool := b.avsWrite && b.avsAddress == r

def writeFire : Bool := b.writes addrReqFire

def writeAck : Bool := b.writes addrRespAck

def writeBias : Bool := b.writes addrBiasSet

def writeBiAck : Bool := b.writes addrBiReqAck

def writeBiRsp : Bool := b.writes addrBiRspSend

def writeBypass : Bool := b.writes addrCacheBypass

/-- `avs_writedata[0]`. -/
def writeBit : Bool := b.avsWritedata.getLsbD 0

/-- `avs_writedata[ADDR_W-1:0]`. -/
def writeAddr (q : ShimParams) : q.engine.Addr := b.avsWritedata.extractLsb' 0 q.addrW

/-- `avs_writedata[DATA_W-1:0]`. -/
def writeData (q : ShimParams) : q.engine.Data := b.avsWritedata.extractLsb' 0 q.dataW

/-- `avs_writedata[TAG_W+3:4]`. -/
def writeTag (q : ShimParams) : q.engine.Tag := b.avsWritedata.extractLsb' 4 q.tagW

variable {b}

theorem writes_iff {r : BitVec 5} :
    b.writes r = true ↔ b.avsWrite = true ∧ b.avsAddress = r := by
  simp [writes]

/-- One bus cycle writes at most one register. -/
theorem writes_unique {r r' : BitVec 5} (h : b.writes r = true) (h' : b.writes r' = true) :
    r = r' := (writes_iff.mp h).2.symm.trans (writes_iff.mp h').2

theorem writes_eq_false {r r' : BitVec 5} (h : b.writes r = true) (hne : r ≠ r') :
    b.writes r' = false := by
  rw [Bool.eq_false_iff]
  intro h'
  exact hne (writes_unique h h')

theorem writes_of_no_write (h : b.avsWrite = false) (r : BitVec 5) : b.writes r = false := by
  rw [writes, h, Bool.false_and]

/-- Nothing but a `REQ_FIRE` is written. -/
structure FireOnly (b : Bus) : Prop where
  reqAddr : b.writes addrReqAddr = false
  reqWdata : b.writes addrReqWdata = false
  ack : b.writeAck = false
  bias : b.writeBias = false
  biAck : b.writeBiAck = false
  biRsp : b.writeBiRsp = false
  bypass : b.writeBypass = false

theorem fireOnly (h : b.writeFire = true) : b.FireOnly := by
  constructor <;> exact writes_eq_false h (by decide)

end Bus

/-- The registers of the shim, together with the engine instance. -/
structure State (q : ShimParams) where
  reqAddr : q.engine.Addr
  reqWdata : q.engine.Data
  biasAddr : q.engine.Addr
  cacheBypassEn : Bool
  pendingValid : Bool
  pendingIsWrite : Bool
  pendingTag : q.engine.Tag
  engine : Engine.State q.engine
  hbCounter : BitVec 26
  seenRequest : Bool
  seenResponse : Bool

/-- The registers that neither reset nor an initial value defines. -/
structure Undefined (q : ShimParams) where
  pendingIsWrite : Bool
  pendingTag : q.engine.Tag

end Shim

end CxlLite
