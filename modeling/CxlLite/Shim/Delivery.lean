import CxlLite.Shim.Run
import CxlLite.Synchronous.Mailbox

/-!
# Delivery of fired requests

`REQ_FIRE` latches the tag and the type of a request, but the address and the
data stay in `REQ_ADDR` and `REQ_WDATA`. The pending register is a mailbox for
whole requests only as long as these two registers keep their values.
-/

namespace CxlLite.Shim

open Synchronous

variable {q : ShimParams}

/-- A request as software fires it. -/
structure Request (q : ShimParams) where
  tag : q.engine.Tag
  isWrite : Bool
  addr : q.engine.Addr
  wdata : q.engine.Data
  deriving DecidableEq

section Statements

variable (x : Undefined q) (bus : ℕ → Bus) (t : ℕ)

/-- The request whose `REQ_FIRE` completes in cycle `t`, with the values then
latched in `REQ_ADDR` and `REQ_WDATA`. -/
def firedRequest : Option (Request q) :=
  if fires x bus t then
    some ⟨(bus t).writeTag q, (bus t).writeBit, (run x bus t).reqAddr, (run x bus t).reqWdata⟩
  else none

/-- The request that the engine accepts in cycle `t`. -/
def acceptedRequest : Option (Request q) :=
  if Engine.accepts (ports x bus) t then
    some ⟨(ports x bus t).m2sTag, (ports x bus t).m2sIsWrite, (ports x bus t).m2sAddr,
      (ports x bus t).m2sWdata⟩
  else none

/-- The request that the shim presents to the engine in cycle `t`. -/
def waitingRequest : Option (Request q) :=
  if (run x bus t).pendingValid then
    some ⟨(run x bus t).pendingTag, (run x bus t).pendingIsWrite, (run x bus t).reqAddr,
      (run x bus t).reqWdata⟩
  else none

/-- The accepted requests are the first of the fired requests, in order and
unaltered, and at most one fired request is not accepted yet. -/
def DeliversFired : Prop :=
  ∀ t, history (acceptedRequest x bus) t <+: history (firedRequest x bus) t ∧
    (history (firedRequest x bus) t).length ≤ (history (acceptedRequest x bus) t).length + 1

/-- No write to `REQ_ADDR` or `REQ_WDATA` changes these registers while a
pending request is stalled. -/
def KeepsLatched : Prop :=
  ∀ t, (run x bus t).pendingValid = true → (run x bus t).m2sReady (bus t) = false →
    ((bus t).writes addrReqAddr = true → (bus t).writeAddr q = (run x bus t).reqAddr) ∧
    ((bus t).writes addrReqWdata = true → (bus t).writeData q = (run x bus t).reqWdata)

end Statements

section Mailbox

variable {x : Undefined q} {bus : ℕ → Bus} {t : ℕ}

theorem reqAddrNext_eq {s : State q} {b : Bus}
    (h : b.writes addrReqAddr = true → b.writeAddr q = s.reqAddr) :
    s.reqAddrNext b = s.reqAddr := by
  rw [State.reqAddrNext]
  split
  · exact h ‹_›
  · rfl

theorem reqWdataNext_eq {s : State q} {b : Bus}
    (h : b.writes addrReqWdata = true → b.writeData q = s.reqWdata) :
    s.reqWdataNext b = s.reqWdata := by
  rw [State.reqWdataNext]
  split
  · exact h ‹_›
  · rfl

theorem acceptedRequest_eq :
    acceptedRequest x bus t = if accepts x bus t then waitingRequest x bus t else none := by
  rw [acceptedRequest, ← accepts_eq]
  split
  · rw [waitingRequest, if_pos (accepts_iff.mp ‹_›).1]
    rfl
  · rfl

/-- A `REQ_FIRE` puts its request into the pending register. -/
theorem waitingRequest_of_fires (hr : ResetOnce bus) (h : fires x bus t = true) :
    waitingRequest x bus (t + 1) = firedRequest x bus t := by
  obtain ⟨h₀, hw, hfree⟩ := fires_iff.mp h
  have haddr : (run x bus t).reqAddrNext (bus t) = (run x bus t).reqAddr := by
    apply reqAddrNext_eq
    simp [(Bus.fireOnly hw).reqAddr]
  have hwdata : (run x bus t).reqWdataNext (bus t) = (run x bus t).reqWdata := by
    apply reqWdataNext_eq
    simp [(Bus.fireOnly hw).reqWdata]
  rw [waitingRequest, firedRequest, if_pos h, run_succ_of_rstn h₀ (hr t h₀)]
  simp [State.edge, State.pendingValidNext, State.pendingTagNext, State.pendingIsWriteNext,
    hw, hfree, haddr, hwdata]

theorem waitingRequest_of_free (h : (run x bus t).pendingValid = false) :
    waitingRequest x bus t = none := if_neg (by simp [h])

theorem waitingRequest_of_accepts (h : accepts x bus t = true) :
    waitingRequest x bus (t + 1) = none := by
  have hpend := (accepts_iff.mp h).1
  apply waitingRequest_of_free
  rw [Bool.eq_false_iff]
  intro hnext
  rcases (pending_latch.next t).mp hnext with ⟨hfire, _⟩ | ⟨_, hkeep⟩
  · simp [not_fires_of_pendingValid hpend] at hfire
  · exact hkeep ⟨hpend, Or.inl h⟩

/-- A stalled request is kept together with its address and data. -/
theorem waitingRequest_of_stalled (hr : ResetOnce bus) (hk : KeepsLatched x bus)
    (hpend : (run x bus t).pendingValid = true) (hstall : (run x bus t).m2sReady (bus t) = false) :
    waitingRequest x bus (t + 1) = waitingRequest x bus t := by
  have h₀ := rstn_of_pendingValid hpend
  obtain ⟨ha, hw⟩ := hk t hpend hstall
  rw [waitingRequest, waitingRequest, run_succ_of_rstn h₀ (hr t h₀)]
  simp [State.edge, State.pendingValidNext, State.pendingTagNext, State.pendingIsWriteNext,
    hpend, hstall, reqAddrNext_eq ha, reqWdataNext_eq hw]

theorem waitingRequest_of_idle (hpend : (run x bus t).pendingValid = false)
    (hfire : fires x bus t = false) : waitingRequest x bus (t + 1) = waitingRequest x bus t := by
  rw [waitingRequest_of_free hpend]
  apply waitingRequest_of_free
  rw [Bool.eq_false_iff]
  intro hnext
  rcases (pending_latch.next t).mp hnext with ⟨hload, _⟩ | ⟨hheld, _⟩
  · simp [hfire] at hload
  · simp [hpend] at hheld

theorem fires_of_firedRequest {m : Request q} (h : firedRequest x bus t = some m) :
    fires x bus t = true := by
  by_contra hne
  simp [firedRequest, hne] at h

theorem accepts_of_acceptedRequest {m : Request q} (h : acceptedRequest x bus t = some m) :
    accepts x bus t = true := by
  by_contra hne
  simp [acceptedRequest_eq, hne] at h

/-- The pending register is a mailbox for whole requests. -/
theorem waiting_mailbox (hr : ResetOnce bus) (hk : KeepsLatched x bus) :
    Mailbox (firedRequest x bus) (acceptedRequest x bus) (waitingRequest x bus) where
  init := by
    apply waitingRequest_of_free
    simpa using (pending_latch : Latch _ (Loads x bus) (Drops x bus)).init
  put_next t m h := by
    have hf := fires_of_firedRequest h
    have hfree := (fires_iff.mp hf).2.2
    refine ⟨waitingRequest_of_free hfree, ?_, (waitingRequest_of_fires hr hf).trans h⟩
    simp [acceptedRequest_eq, accepts, hfree]
  got_next t m h := by
    have ha := accepts_of_acceptedRequest h
    have hf := not_fires_of_pendingValid (accepts_iff.mp ha).1
    rw [acceptedRequest_eq, if_pos ha] at h
    refine ⟨h, ?_, waitingRequest_of_accepts ha⟩
    simp [firedRequest, hf]
  keep t hput hgot := by
    have hf : fires x bus t = false := by
      by_contra hne
      simp [firedRequest, hne] at hput
    cases hpend : (run x bus t).pendingValid with
    | true =>
        apply waitingRequest_of_stalled hr hk hpend
        rw [Bool.eq_false_iff]
        intro hready
        simp [acceptedRequest_eq, waitingRequest, accepts, hpend, hready] at hgot
    | false => exact waitingRequest_of_idle hpend hf

end Mailbox

/-- The shim delivers each fired request unaltered, in every run in which
software leaves `REQ_ADDR` and `REQ_WDATA` alone while a request is stalled. -/
theorem delivers_fired {x : Undefined q} {bus : ℕ → Bus} (hr : ResetOnce bus)
    (hk : KeepsLatched x bus) : DeliversFired x bus :=
  fun t => ⟨(waiting_mailbox hr hk).got_isPrefix_put t, (waiting_mailbox hr hk).put_length_le t⟩

section Demonstration

set_option maxRecDepth 4000

/-- A fired write to the Host-Biased address 0 waits for its handshake while
software writes `REQ_ADDR` with the value it already has. -/
def rewrittenRequest : ℕ → Bus :=
  script [(addrBiasSet, 1), (addrReqFire, 0x31), (addrReqAddr, 0), (addrBiReqAck, 0),
    (addrBiRspSend, 0)]

theorem rewrittenRequest_of_le {t : ℕ} (h : 5 ≤ t) : rewrittenRequest t = Bus.idle :=
  script_of_length_le h

theorem keepsLatched_rewrittenRequest : KeepsLatched powerOnZero rewrittenRequest := by
  intro t
  by_cases ht : t < 5
  · revert t
    decide
  · rw [rewrittenRequest_of_le (Nat.le_of_not_lt ht)]
    intro _ _
    constructor <;> intro h <;> cases h

theorem delivers_fired_rewrittenRequest : DeliversFired powerOnZero rewrittenRequest :=
  delivers_fired (script_resetOnce _) keepsLatched_rewrittenRequest

/-- A fired read of the Host-Biased address 0 waits for its handshake while
software writes 5 to `REQ_ADDR`. -/
def overwrittenRequest : ℕ → Bus :=
  script [(addrBiasSet, 1), (addrReqFire, 0), (addrReqAddr, 5), (addrBiReqAck, 0),
    (addrBiRspSend, 0)]

theorem fired_overwrittenRequest :
    history (firedRequest powerOnZero overwrittenRequest) 6 = [⟨0, false, 0, 0⟩] := by
  decide +kernel

theorem accepted_overwrittenRequest :
    history (acceptedRequest powerOnZero overwrittenRequest) 6 = [⟨0, false, 5, 0⟩] := by
  rw [show acceptedRequest powerOnZero overwrittenRequest = _ from
    funext fun _ => acceptedRequest_eq]
  decide +kernel

/-- A request fired for address 0 is accepted with address 5. -/
theorem not_deliversFired :
    ¬ ∀ (x : Undefined defaultShim) (bus : ℕ → Bus), ResetOnce bus → DeliversFired x bus := by
  intro h
  have hpre := (h powerOnZero overwrittenRequest (script_resetOnce _) 6).1
  rw [fired_overwrittenRequest, accepted_overwrittenRequest] at hpre
  exact absurd hpre (by decide)

end Demonstration

end CxlLite.Shim
