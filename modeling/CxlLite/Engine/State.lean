import CxlLite.Storage.DirectMapped
import Mathlib.Algebra.Group.Nat.Defs
import Mathlib.Data.Nat.Log

/-!
# State and ports of `cxl_mem_protocol_engine`

Arrays are functions of their index. The four slot arrays are one array of
slots and the four cache arrays one array of lines, since every update of the
source writes the elements of one index together.
-/

namespace CxlLite

/-- Parameters of `cxl_mem_protocol_engine`. -/
structure Params where
  addrW : ℕ
  dataW : ℕ
  tagW : ℕ
  readExtraLatency : ℕ
  cacheIdxW : ℕ
  one_le_cacheIdxW : 1 ≤ cacheIdxW
  cacheIdxW_lt : cacheIdxW < addrW

namespace Params

variable (p : Params)

/-- `CACHE_TAG_W`. -/
abbrev cacheTagW : ℕ := p.addrW - p.cacheIdxW

/-- `NUM_TAGS`. -/
def numTags : ℕ := 2 ^ p.tagW

/-- `CNT_W`. -/
def cntW : ℕ :=
  if p.readExtraLatency ≤ 1 then 1 else Nat.clog 2 (p.readExtraLatency + 1)

abbrev Addr := BitVec p.addrW
abbrev Data := BitVec p.dataW
abbrev Tag := BitVec p.tagW
abbrev Idx := BitVec p.cacheIdxW
abbrev CacheTag := BitVec p.cacheTagW
abbrev Cnt := BitVec p.cntW

theorem cacheTagW_add_cacheIdxW : p.cacheTagW + p.cacheIdxW = p.addrW :=
  Nat.sub_add_cancel p.cacheIdxW_lt.le

end Params

/-- `cxl_bias_table`: one bit per address, `true` for Host-Biased. -/
abbrev BiasTable (p : Params) := p.Addr → Bool

/-- The write port of `cxl_bias_table`. -/
def BiasTable.write {p : Params} (bias : BiasTable p) (wrEn : Bool) (wrAddr : p.Addr)
    (wrData : Bool) : BiasTable p :=
  if wrEn then Function.update bias wrAddr wrData else bias

@[simp] theorem BiasTable.write_false {p : Params} (bias : BiasTable p) (a : p.Addr) (v : Bool) :
    bias.write false a v = bias := rfl

@[simp] theorem BiasTable.write_true {p : Params} (bias : BiasTable p) (a : p.Addr) (v : Bool) :
    bias.write true a v = Function.update bias a v := rfl

namespace Engine

variable {p : Params}

/-- `bi_state_t`. -/
inductive BiState where
  | idle
  | req
  | waitRsp
  deriving DecidableEq, Repr

/-- `flush_state_t`. -/
inductive FlushState where
  | idle
  | active
  deriving DecidableEq, Repr

/-- The outstanding-transaction slot of one tag. -/
structure Slot (p : Params) where
  valid : Bool
  isWrite : Bool
  rdata : p.Data
  cnt : p.Cnt

abbrev CacheLine (p : Params) := DirectMapped.Line p.CacheTag p.Data

/-- All registers and arrays of the engine. -/
structure State (p : Params) where
  biState : BiState
  bias : BiasTable p
  flushState : FlushState
  cache : p.Idx → CacheLine p
  mem : p.Addr → p.Data
  slot : p.Tag → Slot p
  respActive : Bool
  respTag : p.Tag
  dbgCacheHits : BitVec 32
  dbgCacheMisses : BitVec 32

/-- The input ports of the engine. -/
structure Inputs (p : Params) where
  rstN : Bool
  m2sValid : Bool
  m2sIsWrite : Bool
  m2sAddr : p.Addr
  m2sTag : p.Tag
  m2sWdata : p.Data
  s2mReady : Bool
  biasWrEn : Bool
  biasAddr : p.Addr
  biasWrData : Bool
  biReqReady : Bool
  biRspValid : Bool
  cacheBypassEn : Bool

/-- `m2s_addr[CACHE_IDX_W-1:0]`. -/
def idxField (a : p.Addr) : p.Idx := a.extractLsb' 0 p.cacheIdxW

/-- `m2s_addr[ADDR_W-1:CACHE_IDX_W]`. -/
def tagField (a : p.Addr) : p.CacheTag := a.extractLsb' p.cacheIdxW p.cacheTagW

/-- `{cache_tag, idx}`. -/
def lineAddr (t : p.CacheTag) (i : p.Idx) : p.Addr :=
  (t ++ i).cast p.cacheTagW_add_cacheIdxW

theorem lineAddr_fields (a : p.Addr) : lineAddr (tagField a) (idxField a) = a := by
  have hlt := p.cacheIdxW_lt
  ext k hk
  simp only [lineAddr, tagField, idxField, BitVec.getElem_cast, BitVec.getElem_append,
    BitVec.getElem_extractLsb']
  by_cases h : k < p.cacheIdxW
  · simp [h, BitVec.getLsbD_eq_getElem hk]
  · have hk' : p.cacheIdxW + (k - p.cacheIdxW) = k := by omega
    simp [h, hk', BitVec.getLsbD_eq_getElem hk]

theorem idxField_lineAddr (t : p.CacheTag) (i : p.Idx) : idxField (lineAddr t i) = i := by
  ext k hk
  simp [lineAddr, idxField, BitVec.getLsbD_append, hk]

theorem tagField_lineAddr (t : p.CacheTag) (i : p.Idx) : tagField (lineAddr t i) = t := by
  ext k hk
  simp [lineAddr, tagField, BitVec.getLsbD_append, hk]

/-- The address split of the engine's cache. -/
def geometry (p : Params) : DirectMapped.Geometry p.Addr p.Idx p.CacheTag where
  idx := idxField
  tag := tagField
  addr := lineAddr
  addr_tag_idx := lineAddr_fields
  idx_addr := idxField_lineAddr
  tag_addr := tagField_lineAddr

end Engine

end CxlLite
