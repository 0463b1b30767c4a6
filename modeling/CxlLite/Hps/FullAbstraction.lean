import CxlLite.Hps.Experiment
import CxlLite.Mmio.Lockstep
import CxlLite.Mmio.Passive
import CxlLite.Shim.Alike

/-!
# What software can find out

The model of a resting shim and three latched registers are all that decides how any
further bus traffic is answered. None of it is out of reach: whatever is different in two
shims can be brought to light by a few register accesses.
-/

namespace CxlLite.Hps

open DirectMapped Engine Shim Synchronous

variable {q : ShimParams}

section Relations

/-- No further bus traffic, with resets at any time, tells the shims apart. -/
def Indistinguishable (s s' : Shim.State q) : Prop :=
  ∀ (future : ℕ → Bus) (n : ℕ),
    ((machine q).run s future n).LooksLike ((machine q).run s' future n)

/-- The shims stand for the same model and have the same values in their latched registers. -/
structure SameMemory (s s' : Shim.State q) : Prop where
  model : Model.ofShim s = Model.ofShim s'
  reqAddr : s.reqAddr = s'.reqAddr
  reqWdata : s.reqWdata = s'.reqWdata
  biasAddr : s.biasAddr = s'.biasAddr

end Relations

section Soundness

variable {s s' : Shim.State q}

/-- Resting shims with the same memory are alike. -/
theorem SameMemory.alike {m m' : Model q.engine} (h : SameMemory s s') (hs : Rest m s)
    (hs' : Rest m' s') : s.Alike s' where
  reqAddr := h.reqAddr
  reqWdata := h.reqWdata
  biasAddr := h.biasAddr
  cacheBypassEn := congrArg Model.bypass h.model
  pendingValid := hs.quiescent.pending.trans hs'.quiescent.pending.symm
  pendingIsWrite hp := by
    rw [hs.quiescent.pending] at hp
    cases hp
  pendingTag hp := by
    rw [hs.quiescent.pending] at hp
    cases hp
  engine :=
    { biState := hs.quiescent.handshake.trans hs'.quiescent.handshake.symm
      bias := congrArg Model.bias h.model
      flushState := hs.quiescent.eviction.trans hs'.quiescent.eviction.symm
      cache := congrArg (fun m => m.cache.lines) h.model
      mem := congrArg (fun m => m.cache.mem) h.model
      slot := by
        intro g
        have hfree := hs.quiescent.slots g
        have hfree' := hs'.quiescent.slots g
        constructor
        · rw [hfree, hfree']
        all_goals
          intro hv
          rw [hfree] at hv
          cases hv
      respActive := by
        rw [respActive_of_free hs.offer hs.quiescent.slots,
          respActive_of_free hs'.offer hs'.quiescent.slots]
      respTag := by
        intro ha
        rw [respActive_of_free hs.offer hs.quiescent.slots] at ha
        cases ha
      dbgCacheHits := congrArg Model.hits h.model
      dbgCacheMisses := congrArg Model.misses h.model }

/-- Alike shims look alike under every further bus traffic. -/
theorem indistinguishable_of_alike (h : s.Alike s') (ho : s.engine.OfferReady) :
    Indistinguishable s s' := by
  intro future n
  have hoffer : ((machine q).run s future n).engine.OfferReady := by
    apply (machine q).run_invariant (P := fun s : Shim.State q => s.engine.OfferReady) ho
    · intro s b hs
      change (s.settle b).engine.OfferReady
      rw [Shim.State.settle_engine s]
      exact settle_offerReady hs
    · intro s b hs
      change (s.step b).engine.OfferReady
      rw [Shim.State.step_engine]
      exact step_offerReady hs
  have hstart : ((machine q).run s future 0).Alike ((machine q).run s' future 0) := h.settle
  have halike := (machine q).run_related (R := Shim.State.Alike)
    (fun s s' b (h : s.Alike s') => h.settle (b := b))
    (fun s s' b (h : s.Alike s') => h.step (b := b)) hstart (fun _ => rfl) n
  rw [Nat.zero_add] at halike
  exact halike.looksLike hoffer

end Soundness

section Experiments

variable {s s' : Shim.State q} {m m' : Model q.engine}

theorem Indistinguishable.looksLike (h : Indistinguishable s s') : s.LooksLike s' :=
  h (fun _ => Bus.idle) 0

/-- Indistinguishable shims run every program in lockstep. -/
theorem lockstep : Mmio.Lockstep (bridge q) Indistinguishable where
  cycle x s s' h future n := by
    have hnext := h (fun u => if u = 0 then onBus x else future (u - 1)) (n + 1)
    rw [(machine q).run_shift, (machine q).run_shift] at hnext
    have hsettle : ∀ s : Shim.State q, (machine q).settle s (onBus x) = s :=
      fun s => Shim.State.settle_of_rstn (onBus_rstn x)
    simp only [if_pos, hsettle, Nat.add_one_ne_zero, if_false, Nat.add_sub_cancel] at hnext
    exact hnext
  stalls x s s' h := h.looksLike.waits (onBus (some x))

theorem Serving.idle {r : Request} {d : q.engine.Data} {c k : ℕ} (h : Serving r d m c k s)
    (n : ℕ) : Serving r d m c (k - n) (((bridge q).cycle none)^[n] s) := by
  induction n with
  | zero => exact h
  | succ n ih =>
      rw [Function.iterate_succ_apply', ← Nat.sub_sub]
      exact ih.cycle undisturbing_idle

section Service

variable {r r' : Request} {d d' : q.engine.Data} {c c' k k' : ℕ}

/-- The time of an answer cannot differ. -/
theorem Indistinguishable.serviceTime (h : Indistinguishable s s') (hs : Serving r d m c k s)
    (hs' : Serving r' d' m' c' k' s') : k = k' := by
  have hvalid : ∀ n, k - n = 0 ↔ k' - n = 0 := by
    intro n
    have hsame := (lockstep.iterate none n h).looksLike.valid
    rw [Shim.State.status_valid, Shim.State.status_valid] at hsame
    rw [← (hs.idle n).respActive_iff, ← (hs'.idle n).respActive_iff]
    exact Bool.eq_iff_iff.mp hsame
  have h₁ := hvalid k
  have h₂ := hvalid k'
  omega

/-- Nor can the data that is read. -/
theorem Indistinguishable.served (h : Indistinguishable s s') (hs : Serving r d m c k s)
    (hs' : Serving r' d' m' c' k' s') (hr : r.isWrite = false) (hr' : r'.isWrite = false) :
    d = d' := by
  obtain rfl := h.serviceTime hs hs'
  have hshown := hs.idle k
  have hshown' := hs'.idle k
  rw [Nat.sub_self] at hshown hshown'
  obtain ⟨haccepted, ha⟩ := hshown.accepted
  obtain ⟨haccepted', ha'⟩ := hshown'.accepted
  have hshows := haccepted.shows ha
  have hshows' := haccepted'.shows ha'
  have hword : d.setWidth 32 = d'.setWidth 32 := by
    rw [← hshows.rdata hr, ← hshows'.rdata hr']
    apply (lockstep.iterate none k h).looksLike.rdata
    · rw [Shim.State.status_valid]
      exact ha
    · rw [hshows.isData, hr]
      rfl
  have hback := congrArg (BitVec.setWidth q.dataW) hword
  rw [BitVec.setWidth_setWidth_of_le _ q.dataW_le, BitVec.setWidth_setWidth_of_le _ q.dataW_le,
    BitVec.setWidth_eq, BitVec.setWidth_eq] at hback
  exact hback

end Service

/-- A Device-Biased read of `a`, with the cache bypassed or not. -/
def probe (a : q.engine.Addr) (bypass : Bool) : Prog PUnit := do
  biasWrite (a.setWidth 32) false
  .write addrCacheBypass (if bypass then 1 else 0)
  fire ⟨false, a.setWidth 32, 0, 0⟩

theorem probe_blind (a : q.engine.Addr) (bypass : Bool) : (probe a bypass).Blind :=
  ((Mmio.Prog.blind_write ..).bind fun _ => Mmio.Prog.blind_write ..).bind fun _ =>
    (Mmio.Prog.blind_write ..).bind fun _ => (Mmio.Prog.blind_write ..).bind fun _ =>
      (Mmio.Prog.blind_write ..).bind fun _ => Mmio.Prog.blind_write ..

/-- A value that is passed in a wider word arrives. -/
theorem extract_setWidth {w : ℕ} (hw : w ≤ 32) (a : BitVec w) :
    (a.setWidth 32).extractLsb' 0 w = a := by
  rw [BitVec.extractLsb'_setWidth_of_le ((Nat.zero_add w).trans_le hw), BitVec.extractLsb'_eq_self]

/-- The model that a probe finds. -/
def Model.probed (m : Model q.engine) (a : q.engine.Addr) (bypass : Bool) : Model q.engine :=
  (m.setBias a false).setBypass bypass

theorem probe_spec (a : q.engine.Addr) (bypass : Bool) :
    Mmio.Triple (bridge q) False (Rest m) (probe a bypass) fun _ =>
      Serving ⟨false, a.setWidth 32, 0, 0⟩ ((m.probed a bypass).answer a)
        ((m.probed a bypass).access (Request.access q ⟨false, a.setWidth 32, 0, 0⟩))
        ((m.probed a bypass).latency ⟨false, a.setWidth 32, 0, 0⟩)
        ((m.probed a bypass).serviceTime ⟨false, a.setWidth 32, 0, 0⟩) := by
  have haddr := extract_setWidth q.addrW_le a
  have hbit : (if bypass then (1 : BitVec 32) else 0).getLsbD 0 = bypass := by
    cases bypass <;> rfl
  apply (biasWrite_spec (a.setWidth 32) false).bind
  intro _
  apply (bypass_spec _).bind
  intro _
  have hfire := fire_spec (q := q) (X := False) (m := m.probed a bypass)
    (r := ⟨false, a.setWidth 32, 0, 0⟩) ?_
  · apply hfire.conseq
    · intro s hs
      rwa [haddr, hbit] at hs
    · intro _ s hs
      rwa [Request.addrBits, haddr] at hs
  · rw [Request.addrBits, haddr]
    exact Function.update_self ..

/-- Every address answers a probe in the same time and with the same data. -/
theorem Indistinguishable.probe (h : Indistinguishable s s') (hs : Rest m s) (hs' : Rest m' s')
    (a : q.engine.Addr) (bypass : Bool) :
    (m.probed a bypass).serviceTime ⟨false, a.setWidth 32, 0, 0⟩ =
        (m'.probed a bypass).serviceTime ⟨false, a.setWidth 32, 0, 0⟩ ∧
      (m.probed a bypass).answer a = (m'.probed a bypass).answer a := by
  obtain ⟨_, t, t', htt, ht, ht'⟩ := lockstep.wp (probe_blind a bypass) h
    (probe_spec a bypass s hs) (probe_spec a bypass s' hs')
  exact ⟨htt.serviceTime ht ht', htt.served ht ht' rfl rfl⟩

end Experiments

section Discovery

variable {s s' : Shim.State q} {m m' : Model q.engine}

/-- The memory is found out past the cache. -/
theorem Indistinguishable.mem (h : Indistinguishable s s') (hs : Rest m s) (hs' : Rest m' s') :
    m.cache.mem = m'.cache.mem := by
  funext a
  have hpast : ∀ m : Model q.engine, (m.probed a true).answer a = m.cache.mem a :=
    fun _ => if_neg (Model.not_hit_of_bypass rfl a)
  rw [← hpast m, ← hpast m']
  exact (h.probe hs hs' a true).2

/-- The time of an answer shows how the cache served it. -/
theorem served_iff {R R' N N' : Prop} [Decidable R] [Decidable R'] [Decidable N] [Decidable N']
    (hn : N → ¬ R) (hn' : N' → ¬ R') (h : (if R then 2 else if N then 7 else 5) =
      if R' then 2 else if N' then 7 else 5) : (R ↔ R') ∧ (N ↔ N') := by
  by_cases hr : R
  · by_cases hr' : R'
    · exact ⟨iff_of_true hr hr', iff_of_false (fun h => hn h hr) fun h => hn' h hr'⟩
    · rw [if_pos hr, if_neg hr'] at h
      split at h <;> omega
  · by_cases hr' : R'
    · rw [if_neg hr, if_pos hr'] at h
      split at h <;> omega
    · rw [if_neg hr, if_neg hr'] at h
      refine ⟨iff_of_false hr hr', ?_⟩
      by_cases hN : N <;> by_cases hN' : N' <;> simp_all

/-- What a line holds, and whether it is dirty, is found out through the cache. -/
theorem Indistinguishable.lines (h : Indistinguishable s s') (hs : Rest m s) (hs' : Rest m' s')
    (blank : CacheLine q.engine)
    (hblank : ∀ i, (m.cache.lines i).valid = false → m.cache.lines i = blank)
    (hblank' : ∀ i, (m'.cache.lines i).valid = false → m'.cache.lines i = blank) :
    m.cache.lines = m'.cache.lines := by
  have hkind : ∀ a : q.engine.Addr,
      (Resident (geometry q.engine) m.cache.lines a ↔
        Resident (geometry q.engine) m'.cache.lines a) ∧
      (NeedsWriteBack (geometry q.engine) m.cache.lines a ↔
        NeedsWriteBack (geometry q.engine) m'.cache.lines a) := by
    intro a
    have htime := (h.probe hs hs' a false).1
    rw [Model.serviceTime_cached rfl, Model.serviceTime_cached rfl,
      extract_setWidth q.addrW_le] at htime
    exact served_iff (fun hn => hn.2.2) (fun hn => hn.2.2) htime
  apply lines_ext (geometry q.engine) blank _ hblank hblank' (fun a => (hkind a).1) _
    fun a => (hkind a).2
  · intro t
    refine ⟨~~~t, fun heq => ?_⟩
    have hpos : 0 < q.engine.cacheTagW := Nat.sub_pos_of_lt q.cacheIdxW_lt
    have hbit := congrArg (fun t => t.getLsbD 0) heq
    simp [hpos] at hbit
  · intro a hr
    have hdata : ∀ m : Model q.engine, Resident (geometry q.engine) m.cache.lines a →
        (m.probed a false).answer a = (m.cache.lines (idxField a)).data :=
      fun _ hr => if_pos ⟨rfl, hr⟩
    have hanswer := (h.probe hs hs' a false).2
    rw [hdata m hr, hdata m' ((hkind a).1.mp hr)] at hanswer
    exact hanswer

theorem Indistinguishable.bias (h : Indistinguishable s s') (hs : Rest m s) (hs' : Rest m' s') :
    m.bias = m'.bias := by
  funext a
  obtain ⟨_, t, t', htt, ⟨ht, ha⟩, ht', ha'⟩ := lockstep.wp
    (Mmio.Prog.blind_write addrBiasAddr (a.setWidth 32)) h (biasAddr_spec _ s hs)
    (biasAddr_spec _ s' hs')
  rw [extract_setWidth q.addrW_le] at ha ha'
  have hword : biasWord (m.bias a) = biasWord (m'.bias a) := by
    rw [← biasGet_and ha (congrArg (fun m => m.bias a) ht.model),
      ← biasGet_and ha' (congrArg (fun m => m.bias a) ht'.model),
      htt.looksLike.others addrBiasGet (by decide) (by decide) (by decide)]
  revert hword
  cases m.bias a <;> cases m'.bias a <;> decide

/-- `BIAS_ADDR` is where the next `BIAS_SET` acts. -/
theorem Indistinguishable.biasAddr (h : Indistinguishable s s') (hs : Rest m s)
    (hs' : Rest m' s') : s.biasAddr = s'.biasAddr := by
  obtain ⟨_, t, t', htt, ht, ht'⟩ := lockstep.wp (Mmio.Prog.blind_write ..) h
    (biasSet_spec s.biasAddr (!m.bias s.biasAddr) s ⟨hs, rfl⟩)
    (biasSet_spec s'.biasAddr (!m.bias s.biasAddr) s' ⟨hs', rfl⟩)
  have hset := congrFun (htt.bias ht ht') s.biasAddr
  by_contra hne
  rw [Model.setBias, Model.setBias] at hset
  change Function.update m.bias _ _ _ = Function.update m'.bias _ _ _ at hset
  rw [Function.update_self, Function.update_of_ne hne, ← h.bias hs hs'] at hset
  cases hb : m.bias s.biasAddr <;> rw [hb] at hset <;> cases hset

/-- Address 0 is set up for a write past the cache. -/
def aim : Prog PUnit := do
  biasWrite 0 false
  .write addrCacheBypass 1
  .write addrReqAddr 0

theorem aim_spec :
    Mmio.Triple (bridge q) False (Rest m) aim fun _ s =>
      Rest (m.probed 0 true) s ∧ s.reqAddr = 0 := by
  have hzero : (0 : BitVec 32).extractLsb' 0 q.addrW = 0 := BitVec.extractLsb'_zero
  have hbias := biasWrite_spec (q := q) (X := False) (m := m) 0 false
  rw [hzero] at hbias
  apply hbias.bind
  intro _
  apply (bypass_spec 1).bind
  intro _
  have haddr := reqAddr_spec (q := q) (X := False) (m := m.probed 0 true) (r := ⟨true, 0, 0, 0⟩)
  rw [Request.addrBits, hzero] at haddr
  exact haddr

/-- The access is no write to `REQ_WDATA`. -/
def SparesWdata (x : Mmio.Access (BitVec 5) (BitVec 32)) : Prop :=
  ∀ v, x ≠ .write addrReqWdata v

theorem aim_spares : aim.Only SparesWdata := by
  have hwrite : ∀ (r : BitVec 5) (v : BitVec 32), r ≠ addrReqWdata →
      (Mmio.Prog.write r v).Only SparesWdata := by
    intro r v hr
    refine ⟨fun w heq => hr ?_, fun _ => trivial⟩
    cases heq
    rfl
  apply Mmio.Prog.Only.bind
  · exact (hwrite _ _ (by decide)).bind fun _ => hwrite _ _ (by decide)
  · intro _
    exact (hwrite _ _ (by decide)).bind fun _ => hwrite _ _ (by decide)

/-- `REQ_WDATA` keeps its value in every cycle that does not write it. -/
theorem reqWdata_cycle {x : Option (Mmio.Access (BitVec 5) (BitVec 32))}
    (hx : (onBus x).writes addrReqWdata = false) :
    ((bridge q).cycle x s).reqWdata = s.reqWdata := by
  rw [bridge_cycle]
  exact if_neg (Bool.not_eq_true _ ▸ hx)

theorem aim_keeps (w : q.engine.Data) :
    Mmio.Triple (bridge q) False (fun s => Rest m s ∧ s.reqWdata = w) aim fun _ s =>
      (Rest (m.probed 0 true) s ∧ s.reqAddr = 0) ∧ s.reqWdata = w := by
  apply aim_spec.frame _ _ aim_spares
  · intro s hs
    rw [reqWdata_cycle rfl, hs]
  · intro x s hx hs
    rw [reqWdata_cycle, hs]
    cases x with
    | read r => rfl
    | write r v =>
        apply writes_onBus
        rintro rfl
        exact hx v rfl

/-- A write of the word in `REQ_WDATA` to address 0, past the cache. -/
def store : Prog PUnit := do
  aim
  .write addrReqFire 1

theorem store_blind : store.Blind :=
  (((Mmio.Prog.blind_write ..).bind fun _ => Mmio.Prog.blind_write ..).bind fun _ =>
    (Mmio.Prog.blind_write ..).bind fun _ => Mmio.Prog.blind_write ..).bind fun _ =>
      Mmio.Prog.blind_write ..

theorem store_spec (w : q.engine.Data) :
    Mmio.Triple (bridge q) False (fun s => Rest m s ∧ s.reqWdata = w) store fun _ s =>
      ∃ d c k, Serving ⟨true, 0, 0, w.setWidth 32⟩ d
        ((m.probed 0 true).access ⟨0, true, w⟩) c k s := by
  have hzero : (0 : BitVec 32).extractLsb' 0 q.addrW = 0 := BitVec.extractLsb'_zero
  apply (aim_keeps w).bind
  intro _
  have hfire := reqFire_serving (q := q) (X := False) (m := m.probed 0 true)
    (r := ⟨true, 0, 0, w.setWidth 32⟩) ?_
  · have hword : Request.fireWord ⟨true, 0, 0, w.setWidth 32⟩ = 1 := by simp [Request.fireWord]
    rw [hword] at hfire
    apply hfire.conseq
    · rintro s ⟨⟨hs, haddr⟩, hwdata⟩
      exact ⟨hs, haddr.trans hzero.symm,
        fun _ => hwdata.trans (extract_setWidth q.dataW_le w).symm⟩
    · intro _ s hs
      rw [Request.access, Request.addrBits, Request.dataBits, hzero,
        extract_setWidth q.dataW_le] at hs
      exact ⟨_, _, _, hs⟩
  · rw [Request.addrBits, hzero]
    exact Function.update_self (0 : q.engine.Addr) false m.bias

/-- `REQ_WDATA` is found out through the next write that does not load it. -/
theorem Indistinguishable.reqWdata (h : Indistinguishable s s') (hs : Rest m s)
    (hs' : Rest m' s') : s.reqWdata = s'.reqWdata := by
  obtain ⟨_, t, t', htt, ⟨d, c, k, ht⟩, d', c', k', ht'⟩ := lockstep.wp store_blind h
    (store_spec s.reqWdata s ⟨hs, rfl⟩) (store_spec s'.reqWdata s' ⟨hs', rfl⟩)
  obtain rfl := htt.serviceTime ht ht'
  have hserved := ht.idle k
  have hserved' := ht'.idle k
  rw [Nat.sub_self] at hserved hserved'
  obtain ⟨_, u, u', huu, hu, hu'⟩ := lockstep.wp (Mmio.Prog.blind_write addrRespAck 1)
    (lockstep.iterate none k htt) (ack_spec _ hserved.accepted) (ack_spec _ hserved'.accepted)
  have hmem := congrFun (huu.mem hu hu') 0
  have hstored : ∀ (m : Model q.engine) (w : q.engine.Data),
      ((m.probed 0 true).access ⟨0, true, w⟩).cache.mem 0 = w := by
    intro m w
    exact Function.update_self (0 : q.engine.Addr) w m.cache.mem
  rwa [hstored, hstored] at hmem

theorem Indistinguishable.bypass (h : Indistinguishable s s') :
    s.cacheBypassEn = s'.cacheBypassEn := by
  have hread : ∀ s : Shim.State q, (s.readReg addrCacheBypass).getLsbD 0 = s.cacheBypassEn := by
    intro s
    change (0#31 ++ BitVec.ofBool s.cacheBypassEn).getLsbD 0 = s.cacheBypassEn
    cases s.cacheBypassEn <;> rfl
  rw [← hread s, ← hread s', h.looksLike.others _ (by decide) (by decide) (by decide)]

end Discovery

section Lines

/-- What a line that holds nothing looks like. -/
def blank : CacheLine q.engine := ⟨false, false, 0, 0⟩

/-- In one cycle a line stays as it is, or is written back, or is filled. -/
theorem cacheNext_cases (s : Engine.State q.engine) (i : Inputs q.engine) (j : q.engine.Idx) :
    s.cacheNext i j = s.cache j ∨ s.cacheNext i j = { s.cache j with dirty := false } ∨
      (s.cacheNext i j).valid = true := by
  rw [Engine.State.cacheNext]
  by_cases hj : j = idxField i.m2sAddr
  · subst hj
    split
    · exact Or.inr (Or.inl (Function.update_self ..))
    split
    · right
      right
      rw [Function.update_self]
      exact acceptLine_valid
    · exact Or.inl rfl
  · left
    split
    · exact Function.update_of_ne hj _ _
    split
    · exact Function.update_of_ne hj _ _
    · rfl

/-- A line that holds nothing has never held anything. -/
theorem line_blank (x : Undefined q) (bus : ℕ → Bus) (t : ℕ) :
    ∀ j, ((Shim.run x bus t).engine.cache j).valid = false →
      (Shim.run x bus t).engine.cache j = blank := by
  rw [Shim.run_engine]
  apply (Engine.machine q.engine).run_invariant
    (P := fun s => ∀ j, (s.cache j).valid = false → s.cache j = blank)
  · exact fun _ _ => rfl
  · intro s i hs
    change ∀ j, ((s.settle i).cache j).valid = false → (s.settle i).cache j = blank
    rwa [Engine.State.settle_cache]
  · intro s i hs j hv
    change (s.step i).cache j = blank
    change ((s.step i).cache j).valid = false at hv
    rw [Engine.State.step_cache] at hv ⊢
    rcases cacheNext_cases s i j with hsame | hclean | hfilled
    · rw [hsame] at hv ⊢
      exact hs j hv
    · rw [hclean] at hv ⊢
      rw [hs j hv]
      rfl
    · rw [hfilled] at hv
      cases hv

end Lines

section Results

variable {x x' : Undefined q} {bus bus' : ℕ → Bus} {t t' : ℕ}

/-- The model is fully abstract. Two shims with nothing pending or outstanding, whatever
their histories, look alike under every further bus traffic, with resets at any time and
in every cycle, if and only if they stand for the same model and have the same values in
the latched registers. So bias table, cache lines with their dirty bits, memory, bypass
control and counters are all that software can find out, and there is nothing of them
that it cannot. -/
theorem fully_abstract (hq : (Shim.run x bus t).Quiescent)
    (hq' : (Shim.run x' bus' t').Quiescent) :
    Indistinguishable (Shim.run x bus t) (Shim.run x' bus' t') ↔
      SameMemory (Shim.run x bus t) (Shim.run x' bus' t') := by
  have hs := rest_of_quiescent hq
  have hs' := rest_of_quiescent hq'
  constructor
  · intro h
    have hlines : (Shim.run x bus t).engine.cache = (Shim.run x' bus' t').engine.cache :=
      h.lines hs hs' blank (line_blank x bus t) (line_blank x' bus' t')
    have hmem : (Shim.run x bus t).engine.mem = (Shim.run x' bus' t').engine.mem := h.mem hs hs'
    have hbias : (Shim.run x bus t).engine.bias = (Shim.run x' bus' t').engine.bias :=
      h.bias hs hs'
    have hhits : (Shim.run x bus t).engine.dbgCacheHits =
        (Shim.run x' bus' t').engine.dbgCacheHits :=
      h.looksLike.others addrCacheHits (by decide) (by decide) (by decide)
    have hmisses : (Shim.run x bus t).engine.dbgCacheMisses =
        (Shim.run x' bus' t').engine.dbgCacheMisses :=
      h.looksLike.others addrCacheMiss (by decide) (by decide) (by decide)
    refine ⟨?_, ?_, h.reqWdata hs hs', h.biasAddr hs hs'⟩
    · rw [Model.ofShim, Model.ofShim, hlines, hmem, hbias, h.bypass, hhits, hmisses]
    · apply Shim.State.readReg_biReqAddr_inj.mp
      exact h.looksLike.others addrBiReqAddr (by decide) (by decide) (by decide)
  · intro h
    exact indistinguishable_of_alike (h.alike hs hs') hs.offer

end Results

section Demonstration

/-- Right after power-on the payload of no request cannot be found out, but an address that
has been written to `REQ_ADDR` can. -/
theorem fully_abstract_powerOn :
    Indistinguishable (Shim.run (q := defaultShim) ⟨true, 3⟩ (fun _ => Bus.idle) 0)
        (Shim.run powerOnZero (fun _ => Bus.idle) 0) ∧
      ¬ Indistinguishable (Shim.run powerOnZero firstReadBus 1)
        (Shim.run powerOnZero (fun _ => Bus.idle) 0) := by
  have hq : ∀ x : Undefined defaultShim, (Shim.run x (fun _ => Bus.idle) 0).Quiescent :=
    fun _ => ⟨rfl, rfl, rfl, fun _ => rfl⟩
  constructor
  · exact (fully_abstract (hq _) (hq _)).mpr ⟨rfl, rfl, rfl, rfl⟩
  · intro h
    have haddr := ((fully_abstract quiescent_firstRead (hq _)).mp h).reqAddr
    exact absurd haddr (by decide)

end Demonstration

end CxlLite.Hps
