import CxlLite.Hps.WorkingSet

/-!
# A response that nobody acknowledged

`do_req` neither compares tags nor checks whether a response is already shown. A run
that ends between the poll and the acknowledge leaves its response behind, and from
then on every call finds the response of the call before it.
-/

namespace CxlLite.Hps

open Engine Shim

variable {q : ShimParams}

section Predicates

/-- The request `r'` is queued behind `r`, whose slot it needs. -/
structure Behind (r r' : Request) (d : q.engine.Data) (s : Shim.State q) : Prop where
  queued : Queued r' s
  inSlot : InSlot r d s
  tag : r'.tagBits q = r.tagBits q
  handshake : s.engine.biState = .idle
  bias : s.engine.bias (r'.addrBits q) = false

/-- The eviction for the queued request is over after so many more cycles; it started
from the model `m`. -/
inductive Evicting (r' : Request) (m : Model q.engine) : ℕ → Shim.State q → Prop
  | evict {s} (hf : s.engine.flushState = .idle) (hn : m.Evicts (r'.addrBits q))
      (hm : Model.ofShim s = m) : Evicting r' m 2 s
  | flush {s} (hf : s.engine.flushState = .active) (hn : m.Evicts (r'.addrBits q))
      (hm : Model.ofShim s = m) : Evicting r' m 1 s
  | clean {s} (hf : s.engine.flushState = .idle)
      (hn : ¬ (Model.ofShim s).Evicts (r'.addrBits q))
      (hanswer : (Model.ofShim s).answer (r'.addrBits q) = m.answer (r'.addrBits q))
      (hmodel : (Model.ofShim s).access (r'.access q) = m.access (r'.access q))
      (hlatency : (Model.ofShim s).latency r' = m.latency r') : Evicting r' m 0 s

/-- The request is accepted in this cycle or has been accepted; its response is shown
after so many more cycles. -/
def Imminent (r : Request) (d : q.engine.Data) (m : Model q.engine) (k : ℕ)
    (s : Shim.State q) : Prop :=
  (∃ c, k = c + 2 ∧ Waiting r d m c s ∧ s.engine.flushState = .idle ∧
    ¬ (Model.ofShim s).Evicts (r.addrBits q)) ∨ Accepted r d m s ∧ Countdown r k s

end Predicates

section Cycles

variable {r r' : Request} {d : q.engine.Data} {m : Model q.engine} {j k : ℕ}
  {s : Shim.State q} {b : Bus}

/-- The acceptance does not wait for the request registers. -/
theorem Imminent.edge (h : Imminent r d m k s) (hb : Calm b) :
    Accepted r d m (s.edge b) ∧ Countdown r (k - 1) (s.edge b) := by
  rcases h with ⟨c, rfl, hwait, hf, hn⟩ | ⟨haccepted, hk⟩
  · cases Serving.edge_ready hwait hf hn hb with
    | count h hc ha => exact ⟨h, ha, hc⟩
  · exact ⟨haccepted.edge hb, haccepted.countdown_edge hk hb⟩

/-- The busy slot keeps the queued request out. -/
theorem Behind.not_ready (h : Behind r r' d s) : s.m2sReady b = false := by
  have hbusy : (s.engine.slot s.pendingTag).valid = true := by
    rw [h.queued.tag, h.tag]
    exact (h.inSlot.slots _).mpr rfl
  change (!(s.engine.slot s.pendingTag).valid && _ && _ && _ && _) = false
  rw [hbusy]
  rfl

theorem Behind.not_accepting (h : Behind r r' d s) : s.accepting b = false := by
  rw [Shim.State.accepting, h.not_ready, Bool.and_false]

theorem Behind.bias_reqAddr (h : Behind r r' d s) : s.engine.bias s.reqAddr = false := by
  rw [h.queued.addr]
  exact h.bias

theorem Behind.handshake_edge (h : Behind r r' d s) (hrst : b.rstn = true) :
    (s.edge b).engine.biState = .idle := by
  apply biState_edge_idle hrst h.handshake
  intro _
  exact h.bias_reqAddr

/-- A queued request stays queued while its slot is busy. -/
theorem Behind.queued_edge (h : Behind r r' d s) (hb : Undisturbing b) :
    Queued r' (s.edge b) := by
  obtain ⟨haddr, hwdata, htag, hisWrite⟩ := hb.latched (s := s)
  refine ⟨?_, ?_, ?_, ?_, ?_⟩
  · rw [hb.calm.pendingValid, h.queued.valid, h.not_ready]
    rfl
  · rw [haddr, h.queued.addr]
  · rw [hisWrite, h.queued.isWrite]
  · rw [htag, h.queued.tag]
  · rw [hwdata]
    exact h.queued.wdata

theorem Behind.edge (h : Behind r r' d s) (hb : Undisturbing b) : Behind r r' d (s.edge b) where
  queued := h.queued_edge hb
  inSlot := h.inSlot.edge hb.rstn h.not_accepting hb.ack
  tag := h.tag
  handshake := h.handshake_edge hb.rstn
  bias := by
    rw [(unbiased_of_idle hb.calm h.handshake).bias_edge]
    exact h.bias

theorem Behind.evicts_iff (h : Behind r r' d s) :
    (Model.ofShim s).Evicts (r'.addrBits q) ↔
      s.engine.needEvictWriteback (s.engineInputs b) = true := by
  rw [← h.queued.addr]
  exact Model.evicts_ofShim

/-- The eviction goes on while the request waits for its slot. -/
theorem Evicting.edge (he : Evicting r' m j s) (h : Behind r r' d s) (hb : Model.Unbiased s b) :
    Evicting r' m (j - 1) (s.edge b) := by
  have haccept : s.engine.acceptThisCycle (s.engineInputs b) = false := h.not_accepting
  cases he with
  | evict hf hn hm =>
      apply Evicting.flush _ hn
      · rw [Model.ofShim_idle hb (not_flush_of_idle hf) haccept]
        exact hm
      · have hneed : s.engine.needEvictWriteback (s.engineInputs b) = true :=
          h.evicts_iff.mp (by rw [hm]; exact hn)
        have hwant : s.engine.wantFlush (s.engineInputs b) = true :=
          wantFlush_iff.mpr ⟨hf, h.handshake, h.bias_reqAddr, h.queued.valid, hneed⟩
        rw [Shim.State.edge_engine hb.rstn]
        simp [Engine.State.edge, Engine.State.flushStateNext, hf, hwant]
  | flush hf hn hm =>
      have hevict : Model.ofShim (s.edge b) = m.evict (r'.addrBits q) := by
        rw [← h.queued.addr, ← hm]
        exact Model.ofShim_flush hb (flush_iff.mpr hf)
      apply Evicting.clean
      · rw [Shim.State.edge_engine hb.rstn]
        simp [Engine.State.edge, Engine.State.flushStateNext, hf]
      · rw [hevict]
        exact Model.not_evicts_evict
      · rw [hevict]
        exact Model.answer_evict hn
      · rw [hevict]
        exact Model.access_evict (r := r'.access q) hn
      · rw [hevict, Model.latency_evict]
  | clean hf hn hanswer hmodel hlatency =>
      have hsame := Model.ofShim_idle hb (not_flush_of_idle hf) haccept
      apply Evicting.clean
      · have hneed : s.engine.needEvictWriteback (s.engineInputs b) = false := by
          rw [Bool.eq_false_iff]
          exact mt h.evicts_iff.mpr hn
        have hwant : s.engine.wantFlush (s.engineInputs b) = false := by
          simp [Engine.State.wantFlush, hneed]
        rw [Shim.State.edge_engine hb.rstn]
        simp [Engine.State.edge, Engine.State.flushStateNext, hf, hwant]
      · rwa [hsame]
      · rwa [hsame]
      · rwa [hsame]
      · rwa [hsame]

/-- `REQ_FIRE` queues a request behind one with its tag. -/
theorem Accepted.behind (h : Accepted r d m s) (hk : Countdown r k s) (hl : Loaded r' s)
    (htag : r'.tagBits q = r.tagBits q) (hbias : m.bias (r'.addrBits q) = false) :
    Behind r r' d (s.edge r'.fireBus) ∧ Countdown r (k - 1) (s.edge r'.fireBus) ∧
      ∃ j ≤ 2, Evicting r' m j (s.edge r'.fireBus) := by
  have hidle : Model.Unbiased s r'.fireBus :=
    ⟨rfl, rfl, rfl, by simp [Engine.State.biFlipNow, h.handshake]⟩
  have hnone : s.pendingValid = true → s.engine.bias s.reqAddr = false := by
    intro hp
    rw [h.pending] at hp
    cases hp
  have hmodel : Model.ofShim (s.edge r'.fireBus) = m := by
    rw [Model.ofShim_idle hidle (not_flush_of_idle h.eviction) h.not_accepting]
    exact h.model
  have hflush : (s.edge r'.fireBus).engine.flushState = .idle :=
    flushState_edge_idle_of rfl h.eviction (Or.inr h.pending)
  refine ⟨⟨queued_edge h.pending hl, h.inSlot.edge rfl h.not_accepting rfl, htag,
    biState_edge_idle rfl h.handshake hnone, ?_⟩,
    h.inSlot.countdown hk rfl h.not_accepting rfl, ?_⟩
  · rw [← hmodel] at hbias
    exact hbias
  · by_cases hn : m.Evicts (r'.addrBits q)
    · exact ⟨2, Nat.le_refl 2, Evicting.evict hflush hn hmodel⟩
    · refine ⟨0, Nat.zero_le 2, Evicting.clean hflush ?_ ?_ ?_ ?_⟩
      · rwa [hmodel]
      all_goals rw [hmodel]

/-- The acknowledge of the shown response lets the queued request in. -/
theorem Behind.imminent_of_ack (h : Behind r r' d s) (hk : Countdown r 0 s)
    (he : Evicting r' m 0 s) (hack : b.writes addrRespAck = true) (hrst : b.rstn = true) :
    Imminent r' (m.answer (r'.addrBits q)) (m.access (r'.access q)) (m.latency r' + 2)
      (s.edge b) := by
  have hno : ∀ a, a ≠ addrRespAck → b.writes a = false := by
    intro a hne
    exact Bus.writes_eq_false hack hne.symm
  have hidle : Model.Unbiased s b :=
    ⟨hrst, hno _ (by decide), hno _ (by decide), by simp [Engine.State.biFlipNow, h.handshake]⟩
  have hactive : s.engine.respActive = true := hk
  have hconsume : s.engine.respConsumedThisCycle (s.engineInputs b) = true := by
    rw [Engine.State.respConsumedThisCycle, hactive]
    exact hack
  have hshown : s.engine.respTag = r.tagBits q :=
    (h.inSlot.slots _).mp (h.inSlot.offer.consumed hconsume).1
  have hqueued : Queued r' (s.edge b) := by
    have hfire : b.writeFire = false := hno _ (by decide)
    refine ⟨?_, ?_, ?_, ?_, ?_⟩
    · simp [Shim.State.edge, Shim.State.pendingValidNext, h.queued.valid, hfire, h.not_ready]
    · simp [Shim.State.edge, Shim.State.reqAddrNext, hno addrReqAddr (by decide), h.queued.addr]
    · simp [Shim.State.edge, Shim.State.pendingIsWriteNext, hfire, h.queued.isWrite]
    · simp [Shim.State.edge, Shim.State.pendingTagNext, hfire, h.queued.tag]
    · intro hw
      simp [Shim.State.edge, Shim.State.reqWdataNext, hno addrReqWdata (by decide),
        h.queued.wdata hw]
  have hfree : ∀ g, ((s.edge b).engine.slot g).valid = false := by
    intro g
    rw [Bool.eq_false_iff, ne_eq, Shim.State.edge_engine hrst]
    intro hg
    rcases (slotNext_valid_iff h.inSlot.offer g).mp hg with ⟨hacc, _⟩ | ⟨hv, hkeep⟩
    · rw [← Shim.State.accepting_eq, h.not_accepting] at hacc
      cases hacc
    · exact hkeep ⟨hconsume, hshown.trans ((h.inSlot.slots g).mp hv).symm⟩
  have hnext : Evicting r' m 0 (s.edge b) := he.edge h hidle
  cases hnext with
  | clean hf hn hanswer hmodel hlatency =>
      refine Or.inl ⟨m.latency r', rfl, ?_, hf, hn⟩
      refine ⟨⟨hqueued, hfree, edge_offer hrst h.inSlot.offer⟩, h.handshake_edge hrst, ?_, hanswer,
        hmodel, hlatency⟩
      rw [hidle.bias_edge]
      exact h.bias

end Cycles

section Calls

variable {X : Prop} {r r' : Request} {d : q.engine.Data} {m : Model q.engine} {polls : ℕ}
  {s : Shim.State q}

/-- The request has been accepted or will be in this cycle, and is answered soon. -/
def Soon (r : Request) (d : q.engine.Data) (m : Model q.engine) (s : Shim.State q) : Prop :=
  ∃ k ≤ 5, Imminent r d m k s

/-- The request has been accepted, and is answered soon. -/
def AnsweredSoon (r : Request) (d : q.engine.Data) (m : Model q.engine) (s : Shim.State q) : Prop :=
  Accepted r d m s ∧ ∃ k ≤ 5, Countdown r k s

/-- The request `r'` waits behind `r`, which is answered after `k` more cycles, and has
`j` cycles of its eviction before it at most. -/
def Late (r r' : Request) (d : q.engine.Data) (m : Model q.engine) (k j : ℕ)
    (s : Shim.State q) : Prop :=
  Behind r r' d s ∧ Countdown r k s ∧ ∃ i ≤ j, Evicting r' m i s

theorem Soon.cycle {x : Option (Mmio.Access (BitVec 5) (BitVec 32))} (h : Soon r d m s)
    (hx : Calm (onBus x)) : AnsweredSoon r d m ((bridge q).cycle x s) := by
  obtain ⟨k, hk, himm⟩ := h
  obtain ⟨haccepted, hcount⟩ := himm.edge hx
  rw [bridge_cycle]
  exact ⟨haccepted, k - 1, by omega, hcount⟩

theorem AnsweredSoon.soon (h : AnsweredSoon r d m s) : Soon r d m s := by
  obtain ⟨haccepted, k, hk, hcount⟩ := h
  exact ⟨k, hk, Or.inr ⟨haccepted, hcount⟩⟩

theorem Late.cycle {x : Option (Mmio.Access (BitVec 5) (BitVec 32))} {k j : ℕ}
    (h : Late r r' d m k j s) (hx : Undisturbing (onBus x)) :
    Late r r' d m (k - 1) (j - 1) ((bridge q).cycle x s) := by
  obtain ⟨hbehind, hcount, i, hi, he⟩ := h
  rw [bridge_cycle]
  exact ⟨hbehind.edge hx,
    hbehind.inSlot.countdown hcount hx.rstn hbehind.not_accepting hx.ack,
    i - 1, by omega, he.edge hbehind (unbiased_of_idle hx.calm hbehind.handshake)⟩

theorem Late.mono {k j j' : ℕ} (h : Late r r' d m k j s) (hj : j ≤ j') : Late r r' d m k j' s := by
  obtain ⟨hbehind, hcount, i, hi, he⟩ := h
  exact ⟨hbehind, hcount, i, hi.trans hj, he⟩

theorem calm_idle : Calm (onBus none) := undisturbing_idle.calm

theorem calm_write {reg : BitVec 5} {v : BitVec 32}
    (h : ∀ a ∈ [addrReqFire, addrRespAck, addrBiasSet, addrCacheBypass], reg ≠ a) :
    Calm (onBus (some (.write reg v))) := by
  constructor
  · rfl
  all_goals exact writes_onBus (h _ (by simp))

theorem late_fire (htag : r'.tagBits q = r.tagBits q) (hbias : m.bias (r'.addrBits q) = false) :
    Mmio.Triple (bridge q) X (Soon r d m) (fire r') fun _ s => ∃ k ≤ 5, Late r r' d m k 2 s := by
  have hstable : ∀ (s : Shim.State q), AnsweredSoon r d m s →
      AnsweredSoon r d m ((bridge q).cycle none s) := fun s hs => hs.soon.cycle calm_idle
  have haddr : Mmio.Triple (bridge q) X (Soon r d m) (.write addrReqAddr r'.addr)
      fun _ s => AnsweredSoon r d m s ∧ s.reqAddr = r'.addrBits q := by
    apply Mmio.Triple.write
    · exact fun s hs => (hs.cycle calm_idle).soon
    · intro s _
      exact bridge_ready_write fun hfire => absurd hfire (by decide)
    · intro s hs
      refine ⟨hs.cycle (calm_write (by decide)), ?_⟩
      rw [bridge_cycle]
      rfl
  have hwdata : Mmio.Triple (bridge q) X (fun s => AnsweredSoon r d m s ∧ s.reqAddr = r'.addrBits q)
      (.write addrReqWdata r'.wdata) fun _ s => AnsweredSoon r d m s ∧ Loaded r' s := by
    apply Mmio.Triple.write
    · rintro s ⟨hs, ha⟩
      refine ⟨hstable s hs, ?_⟩
      rw [bridge_cycle]
      exact ha
    · intro s _
      exact bridge_ready_write fun hfire => absurd hfire (by decide)
    · rintro s ⟨hs, ha⟩
      refine ⟨hs.soon.cycle (calm_write (by decide)), ?_⟩
      rw [bridge_cycle]
      exact ⟨ha, fun _ => rfl⟩
  have hfire : Mmio.Triple (bridge q) X (fun s => AnsweredSoon r d m s ∧ Loaded r' s)
      (.write addrReqFire r'.fireWord) fun _ s => ∃ k ≤ 5, Late r r' d m k 2 s := by
    apply Mmio.Triple.write
    · rintro s ⟨hs, hl⟩
      refine ⟨hstable s hs, ?_⟩
      rw [bridge_cycle]
      exact ⟨hl.addr, hl.wdata⟩
    · rintro s ⟨hs, _⟩
      exact bridge_ready_write fun _ => hs.1.pending
    · rintro s ⟨⟨haccepted, k, hk, hcount⟩, hl⟩
      rw [bridge_cycle]
      exact ⟨k - 1, by omega, haccepted.behind hcount hl htag hbias⟩
  apply haddr.bind
  intro _
  apply hwdata.bind
  intro _
  exact hfire

theorem late_pollStatus {k : ℕ} (hk : X ∨ k < polls) :
    Mmio.Triple (bridge q) X (Late r r' d m k 2) (pollStatus polls)
      fun _ => Late r r' d m 0 1 := by
  apply Mmio.Triple.poll (I := fun k => Late r r' d m k 2) _ _ _ _ hk
  · intro n s hs
    exact (hs.cycle undisturbing_idle).mono (by omega)
  · intro n s _
    exact bridge_ready_read _
  · intro n s hs hfail
    rw [bridge_data, statusValid_iff, Bool.eq_false_iff, ne_eq, hs.2.1.respActive_iff] at hfail
    exact ⟨Nat.pos_of_ne_zero hfail, (hs.cycle (undisturbing_read _)).mono (by omega)⟩
  · intro n s hs hpass
    rw [bridge_data, statusValid_iff] at hpass
    obtain rfl := hs.2.1.respActive_iff.mp hpass
    exact hs.cycle (undisturbing_read _)

/-- What is read is the data of the request that is answered first. -/
theorem late_respRdata :
    Mmio.Triple (bridge q) X (Late r r' d m 0 1) (.read addrRespRdata) fun v s =>
      (r.isWrite = false → v = d.setWidth 32) ∧ Late r r' d m 0 0 s := by
  apply Mmio.Triple.read
  · intro s hs
    exact (hs.cycle undisturbing_idle).mono (by omega)
  · intro s _
    exact bridge_ready_read _
  · intro s hs
    refine ⟨?_, hs.cycle (undisturbing_read _)⟩
    intro hr
    obtain ⟨hbehind, hactive, _⟩ := hs
    have hshown : s.engine.respTag = r.tagBits q :=
      (hbehind.inSlot.slots _).mp (eligible_iff.mp (hbehind.inSlot.offer hactive)).1
    rw [← hbehind.inSlot.rdata hr, ← hshown]
    rfl

theorem late_ack :
    Mmio.Triple (bridge q) X (Late r r' d m 0 0) (.write addrRespAck 1) fun _ =>
      Soon r' (m.answer (r'.addrBits q)) (m.access (r'.access q)) := by
  apply Mmio.Triple.write
  · intro s hs
    exact hs.cycle undisturbing_idle
  · intro s _
    exact bridge_ready_write fun hfire => absurd hfire (by decide)
  · rintro s ⟨hbehind, hcount, i, hi, he⟩
    obtain rfl : i = 0 := Nat.le_zero.mp hi
    have hlatency : m.latency r' ≤ 3 := by
      rw [Model.latency]
      change (if _ then 0 else 3) ≤ 3
      split <;> omega
    rw [bridge_cycle]
    exact ⟨_, by omega, hbehind.imminent_of_ack hcount he rfl rfl⟩

/-- A call that follows an unacknowledged request with its tag returns the data of that
request, and leaves its own behind. -/
theorem doReq_late {isWrite : Bool} {addr wdata : BitVec 32}
    (htag : r.tagBits q = (1 : BitVec 32).extractLsb' 0 q.tagW)
    (hbias : m.bias (addr.extractLsb' 0 q.addrW) = false) (hp : X ∨ 7 < polls) :
    Mmio.Triple (bridge q) X (Soon r d m) (doReq polls isWrite addr wdata) fun v s =>
      (r.isWrite = false → v = d.setWidth 32) ∧
        Soon ⟨isWrite, addr, 1, wdata⟩ (m.answer (addr.extractLsb' 0 q.addrW))
          (m.access (Request.access q ⟨isWrite, addr, 1, wdata⟩)) s := by
  have hfired : (⟨isWrite, addr, 1, wdata⟩ : Request).tagBits q = r.tagBits q := htag.symm
  apply (late_fire hfired hbias).bind
  rintro _ s ⟨k, hk, hs⟩
  have hpolls : X ∨ k < polls := hp.imp_right fun h => by omega
  have hrest : Mmio.Triple (bridge q) X (Late r ⟨isWrite, addr, 1, wdata⟩ d m k 2)
      ((pollStatus polls).bind fun _ => Mmio.Prog.bind (.read addrRespRdata) fun v =>
        Mmio.Prog.bind (.write addrRespAck 1) fun _ => .ret v) fun v s =>
      (r.isWrite = false → v = d.setWidth 32) ∧
        Soon ⟨isWrite, addr, 1, wdata⟩ (m.answer (addr.extractLsb' 0 q.addrW))
          (m.access (Request.access q ⟨isWrite, addr, 1, wdata⟩)) s := by
    apply (late_pollStatus hpolls).bind
    intro _
    apply late_respRdata.bind
    intro v
    apply Mmio.Triple.of_pure
    intro hv
    apply late_ack.bind
    intro _
    apply Mmio.Triple.ret
    intro s hs
    exact ⟨hv, hs⟩
  exact hrest s hs

end Calls

section Runs

variable {X : Prop} {m : Model q.engine} {polls : ℕ}

/-- The request that a call of `do_req` fires. -/
def callRequest (c : Driver.Call) : Request := ⟨c.isWrite, c.addr, 1, c.wdata⟩

/-- A call that is killed after its poll, and the calls of the runs after it. -/
def afterKill (polls : ℕ) (killed : Driver.Call) (calls : List Driver.Call) :
    Prog (List (BitVec 32)) := do
  fire (callRequest killed)
  let _ ← pollStatus polls
  .sequence (calls.map fun c => doReq polls c.isWrite c.addr c.wdata)

/-- The accesses of a list of calls. -/
def callAccesses (q : ShimParams) (calls : List Driver.Call) :
    List (WriteBackCache.Access q.engine.Addr q.engine.Data) :=
  calls.map fun c => (callRequest c).access q

/-- `v` is what call number `i` of the list should have returned. -/
def Answers (m : Model q.engine) (calls : List Driver.Call) (i : ℕ) (v : BitVec 32) : Prop :=
  ∀ c, calls[i]? = some c → c.isWrite = false →
    v = ((m.serve (callAccesses q (calls.take i))).answer
      ((callRequest c).addrBits q)).setWidth 32

/-- After some calls: each has returned what the call before it should have, and the
last one is still being answered. -/
def OneLate (m : Model q.engine) (all l : List Driver.Call) (vs : List (BitVec 32))
    (s : Shim.State q) : Prop :=
  ∃ pre last, all = pre ++ last :: l ∧ vs.length = pre.length ∧
    (∀ i v, vs[i]? = some v → Answers m all i v) ∧
      Soon (callRequest last)
        ((m.serve (callAccesses q pre)).answer ((callRequest last).addrBits q))
        (m.serve (callAccesses q (pre ++ [last]))) s

theorem Soon.not_quiescent {r : Request} {d : q.engine.Data} {s : Shim.State q}
    (h : Soon r d m s) : ¬ s.Quiescent := by
  intro hq
  obtain ⟨k, _, ⟨c, _, hwait, _⟩ | ⟨haccepted, _⟩⟩ := h
  · have hvalid := hwait.valid
    rw [hq.pending] at hvalid
    cases hvalid
  · have hvalid := (haccepted.slots _).mpr rfl
    rw [hq.slots] at hvalid
    cases hvalid

/-- One more call: the last answer goes to it. -/
theorem OneLate.snoc {all l : List Driver.Call} {c : Driver.Call} {vs : List (BitVec 32)}
    {v : BitVec 32} {s' : Shim.State q} {pre : List Driver.Call} {last : Driver.Call}
    (hall : all = pre ++ last :: c :: l) (hlen : vs.length = pre.length)
    (hvs : ∀ i v, vs[i]? = some v → Answers m all i v)
    (hv : last.isWrite = false → v = ((m.serve (callAccesses q pre)).answer
      ((callRequest last).addrBits q)).setWidth 32)
    (hs : Soon (callRequest c)
      ((m.serve (callAccesses q (pre ++ [last]))).answer ((callRequest c).addrBits q))
      ((m.serve (callAccesses q (pre ++ [last]))).access ((callRequest c).access q)) s') :
    OneLate m all l (vs ++ [v]) s' := by
  refine ⟨pre ++ [last], c, by simp [hall], by simp [hlen], ?_, ?_⟩
  · intro i w hi
    rcases Nat.lt_trichotomy i vs.length with hlt | rfl | hgt
    · rw [List.getElem?_append_left hlt] at hi
      exact hvs i w hi
    · rw [List.getElem?_concat_length] at hi
      obtain rfl := Option.some.inj hi
      intro c' hc' hread
      rw [hall, hlen, List.getElem?_append_right (Nat.le_refl _), Nat.sub_self] at hc'
      obtain rfl := Option.some.inj hc'
      rw [hall, hlen, List.take_left]
      exact hv hread
    · rw [List.getElem?_eq_none (by rw [List.length_append, List.length_singleton]; omega)] at hi
      cases hi
  · have hafter : m.serve (callAccesses q (pre ++ [last] ++ [c])) =
        (m.serve (callAccesses q (pre ++ [last]))).access ((callRequest c).access q) := by
      rw [callAccesses, List.map_append, List.map_singleton, Model.serve_append, callAccesses]
    rw [hafter]
    exact hs

theorem afterKill_spec {killed : Driver.Call} {calls : List Driver.Call}
    (hbias : ∀ c ∈ killed :: calls, m.bias ((callRequest c).addrBits q) = false)
    (hp : X ∨ 7 < polls) :
    Mmio.Triple (bridge q) X (Rest m) (afterKill polls killed calls) fun vs s =>
      vs.length = calls.length ∧ (∀ i v, vs[i]? = some v → Answers m (killed :: calls) i v) ∧
        ¬ s.Quiescent := by
  apply (fire_spec (r := callRequest killed) (hbias killed (List.mem_cons_self ..))).bind
  intro _
  apply (pollStatus_spec (enough_polls hp)).bind
  intro _
  apply Mmio.Triple.of_pure
  intro _
  refine (Mmio.Triple.sequence (I := OneLate m (killed :: calls)) ?_ calls []).conseq ?_ ?_
  · rintro c l vs s ⟨pre, last, hall, hlen, hvs, hs⟩
    have hc : (m.serve (callAccesses q (pre ++ [last]))).bias ((callRequest c).addrBits q) =
        false := by
      rw [Model.serve_bias]
      exact hbias c (by simp [hall])
    apply Mmio.wp_mono _ (doReq_late rfl hc hp s hs)
    rintro v s' ⟨hv, hs'⟩
    exact OneLate.snoc hall hlen hvs hv hs'
  · intro s hs
    refine ⟨[], killed, rfl, rfl, fun i v hi => by simp at hi, ?_⟩
    exact AnsweredSoon.soon ⟨hs.1, 0, by omega, hs.2⟩
  · rintro vs s ⟨pre, last, hall, hlen, hvs, hs⟩
    refine ⟨?_, hvs, hs.not_quiescent⟩
    have hlength := congrArg List.length hall
    rw [List.length_cons, List.length_append, List.length_singleton] at hlength
    rw [List.nil_append] at hlen
    omega

/-- One call that is killed between its poll and its acknowledge puts every later run of
`do_req` out of step, for good. On a shim with nothing pending or outstanding and the
addresses Device-Biased, however the processor is paced, each later call returns what the
call before it should have returned, as far as that was a read, and afterwards the shim is
still not at rest. -/
theorem stale_responses {x : Shim.Undefined q} {bus : ℕ → Bus} {t : ℕ}
    (hq : (Shim.run x bus t).Quiescent) {killed : Driver.Call} {calls : List Driver.Call}
    (hbias : ∀ c ∈ killed :: calls,
      (Shim.run x bus t).engine.bias ((callRequest c).addrBits q) = false)
    (polls : ℕ) (gaps : ℕ → ℕ) :
    ∃ n c, Mmio.run (bridge q) gaps (afterKill polls killed calls) (Shim.run x bus t) n = c ∧
      ((∃ vs, c.prog = .ret vs ∧ vs.length = calls.length ∧
        (∀ i v, vs[i]? = some v →
          Answers (Model.ofShim (Shim.run x bus t)) (killed :: calls) i v) ∧
        ¬ c.device.Quiescent) ∨
      c.prog = .exit ∧ polls ≤ 7) :=
  outcome hq (afterKill_spec hbias (le_or_gt polls 7)) gaps

end Runs

section Demonstration

/-- After a killed write of 7 to address 5 and a read of address 5, the read of address 6
returns the 7. -/
theorem stale_responses_shifted :
    ∃ n vs, (Mmio.run (bridge defaultShim) (fun n => n)
      (afterKill 8 ⟨true, 5, 7⟩ [⟨false, 5, 0⟩, ⟨false, 6, 0⟩])
      (Shim.run powerOnZero (fun _ => Bus.idle) 0) n).prog = .ret vs ∧ vs[1]? = some 7 := by
  obtain ⟨n, c, hrun, ⟨vs, hprog, hlen, hvs, _⟩ | ⟨_, hpolls⟩⟩ :=
    @stale_responses defaultShim powerOnZero (fun _ => Bus.idle) 0 ⟨rfl, rfl, rfl, fun _ => rfl⟩
      ⟨true, 5, 7⟩ [⟨false, 5, 0⟩, ⟨false, 6, 0⟩] (fun _ _ => rfl) 8 fun n => n
  · have hlt : 1 < vs.length := by
      rw [hlen]
      decide
    obtain ⟨v, hv⟩ : ∃ v, vs[1]? = some v := ⟨vs[1], List.getElem?_eq_getElem hlt⟩
    have hseven : v = 7 := hvs 1 v hv ⟨false, 5, 0⟩ rfl rfl
    exact ⟨n, vs, by rw [hrun, hprog], by rw [hv, hseven]⟩
  · omega

end Demonstration

end CxlLite.Hps
