import CxlLite.Shim.Run

/-!
# What software reads

Reading has no side effect, so a register has a value in every cycle, whether
or not it is on the bus.
-/

namespace CxlLite.Shim

variable {q : ShimParams}

namespace State

variable (s : State q)

/-- The value of register `r`, as a bus read in this cycle returns it. -/
def readReg (r : BitVec 5) : BitVec 32 := s.avsReaddata { Bus.idle with avsAddress := r }

/-- The address that software reads from `BI_REQ_ADDR`. -/
def shownBiAddr : q.engine.Addr := (s.readReg addrBiReqAddr).setWidth q.addrW

theorem readReg_status :
    s.readReg addrStatus =
      0#30 ++ BitVec.ofBool s.engine.s2mIsData ++ BitVec.ofBool s.engine.s2mValid := rfl

theorem readReg_biStatus :
    s.readReg addrBiStatus =
      0#30 ++ BitVec.ofBool s.engine.biActive ++ BitVec.ofBool s.engine.biReqValid := rfl

theorem readReg_biReqAddr : s.readReg addrBiReqAddr = s.reqAddr.setWidth 32 := rfl

/-- `STATUS` bit 0. -/
theorem status_valid : (s.readReg addrStatus).getLsbD 0 = s.engine.s2mValid := by
  rw [readReg_status]
  cases s.engine.s2mIsData <;> cases s.engine.s2mValid <;> rfl

/-- `STATUS` bit 1. -/
theorem status_isData : (s.readReg addrStatus).getLsbD 1 = s.engine.s2mIsData := by
  rw [readReg_status]
  cases s.engine.s2mIsData <;> cases s.engine.s2mValid <;> rfl

/-- `BI_STATUS` bit 0. -/
theorem biStatus_reqValid : (s.readReg addrBiStatus).getLsbD 0 = s.engine.biReqValid := by
  rw [readReg_biStatus]
  cases s.engine.biActive <;> cases s.engine.biReqValid <;> rfl

/-- `BI_STATUS` bit 1. -/
theorem biStatus_active : (s.readReg addrBiStatus).getLsbD 1 = s.engine.biActive := by
  rw [readReg_biStatus]
  cases s.engine.biActive <;> cases s.engine.biReqValid <;> rfl

/-- `BI_REQ_ADDR` is wide enough for every address. -/
theorem shownBiAddr_eq : s.shownBiAddr = s.reqAddr := by
  rw [shownBiAddr, readReg_biReqAddr]
  exact (BitVec.setWidth_setWidth_of_le _ q.addrW_le).trans (BitVec.setWidth_eq _)

theorem readReg_biReqAddr_inj {s s' : State q} :
    s.readReg addrBiReqAddr = s'.readReg addrBiReqAddr ↔ s.reqAddr = s'.reqAddr := by
  refine ⟨fun h => ?_, fun h => by rw [readReg_biReqAddr, readReg_biReqAddr, h]⟩
  rw [← s.shownBiAddr_eq, ← s'.shownBiAddr_eq, shownBiAddr, shownBiAddr, h]

end State

end CxlLite.Shim
