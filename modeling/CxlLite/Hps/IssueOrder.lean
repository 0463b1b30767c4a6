import CxlLite.Engine.Channel
import CxlLite.Hps.MaxOutstanding

/-!
# Two requests in flight

`test_phase2h` fires a read and then a write without waiting in between. It takes
four register accesses to fire the second request, and by then the first one is so
close to its response that nothing can overtake it.
-/

namespace CxlLite.Hps

open Engine Shim

variable {q : ShimParams}

section Programs

/-- `seen10`, `seen12`, `pos10`, `pos12` and `pos`, for the tags of two requests. -/
structure Arrivals where
  seenFirst : Bool
  seenSecond : Bool
  posFirst : ℤ
  posSecond : ℤ
  pos : ℤ
  deriving DecidableEq, Repr

namespace Arrivals

def start : Arrivals := ⟨false, false, -1, -1, 0⟩

/-- What the loop notes about a response. -/
def note (r r' : Request) (a : Arrivals) (tag : BitVec 32) : Arrivals :=
  let a :=
    if tag = r.tag ∧ a.seenFirst = false then
      { a with seenFirst := true, posFirst := a.pos, pos := a.pos + 1 }
    else a
  if tag = r'.tag ∧ a.seenSecond = false then
    { a with seenSecond := true, posSecond := a.pos, pos := a.pos + 1 }
  else a

end Arrivals

/-- One round of the loop, until both tags are seen. -/
def collectRound (r r' : Request) (a : Arrivals) : Prog (Arrivals ⊕ Arrivals) :=
  if a.seenFirst && a.seenSecond then .ret (.inr a)
  else
    (Mmio.Prog.read addrStatus).bind fun s =>
      if statusValid s then
        (Mmio.Prog.read addrRespTag).bind fun tag =>
          (Mmio.Prog.write addrRespAck 1).bind fun _ => .ret (.inl (a.note r r' tag))
      else .ret (.inl a)

/-- Two requests without a wait in between: `already_done` and what the loop has noted. -/
def overlap (r r' : Request) (rounds : ℕ) : Prog (Bool × Arrivals) := do
  fire r
  let s ← .read addrStatus
  fire r'
  let a ← .loop (collectRound r r') rounds Arrivals.start
  return (statusValid s, a)

def testPhase2h (rounds : ℕ) : Prog (Bool × Arrivals) :=
  overlap ⟨false, 0x09, 10, 0⟩ ⟨true, 0x40, 12, 0xCAFEBABE⟩ rounds

end Programs

section Firing

variable {X : Prop} {m : Model q.engine} {f : Ledger q} {r r' : Request} {g g' : q.engine.Tag}
  {k : ℕ} {s : Shim.State q}

/-- The channel shows the response of tag `g`, or the arbiter picks it in this cycle. -/
def Leading (g : q.engine.Tag) (s : Shim.State q) : Prop :=
  (s.engine.respActive = true ∧ s.engine.respTag = g) ∨
    s.engine.respActive = false ∧ s.engine.arb = (true, g)

/-- Nothing is queued, and a response is shown within `k` cycles. -/
def Approaching (m : Model q.engine) (f : Ledger q) (k : ℕ) (s : Shim.State q) : Prop :=
  Settled m f s ∧ Near k s

theorem approaching_cycle {x : Option (Mmio.Access (BitVec 5) (BitVec 32))}
    (hs : Afloat m f s) (hk : Near k s) (hx : Quiet (onBus x)) :
    Approaching m f (k - 1) ((bridge q).cycle x s) := by
  refine ⟨hs.cycle hx, ?_⟩
  rw [bridge_cycle]
  exact (hk.edge hs hx).1

theorem Approaching.cycle {x : Option (Mmio.Access (BitVec 5) (BitVec 32))}
    (h : Approaching m f k s) (hx : Quiet (onBus x)) :
    Approaching m f (k - 1) ((bridge q).cycle x s) := approaching_cycle h.1.afloat h.2 hx

theorem approaching_stable : (bridge q).Stable (Approaching m f k) := by
  intro s hs
  have hnext := hs.cycle quiet_idle
  exact ⟨hnext.1, hnext.2.mono (Nat.sub_le k 1)⟩

/-- The only request that is owed a response leads when the response is one cycle away. -/
theorem Carrying.leading (h : Carrying m f s) (hk : Near 1 s)
    (hf : ∀ x, (f x).isSome = true ↔ x = g) : Leading g s := by
  have honly : ∀ x, (s.engine.slot x).valid = true → x = g := by
    intro x hx
    rw [h.slots] at hx
    exact (hf x).mp hx
  rcases Bool.eq_false_or_eq_true s.engine.respActive with ha | ha
  · exact Or.inl ⟨ha, (hf _).mp (h.entry_of_active ha)⟩
  · rcases hk with hactive | ⟨x, hv, hx⟩ | ⟨_, hle⟩
    · rw [ha] at hactive
      cases hactive
    · have hzero : (s.engine.slot x).cnt = 0 := BitVec.eq_of_toNat_eq (by simpa using hx)
      have hfound : s.engine.arb.1 = true :=
        arb_found_iff.mpr ⟨x, eligible_iff.mpr ⟨hv, hzero⟩⟩
      have htag : s.engine.arb.2 = g :=
        honly _ (eligible_iff.mp (eligible_of_arb hfound)).1
      exact Or.inr ⟨ha, Prod.ext hfound htag⟩
    · omega

/-- A response that leads is shown after one more cycle. -/
theorem offering_of_leading {x : Option (Mmio.Access (BitVec 5) (BitVec 32))}
    (hs : Afloat m f s) (hg : Leading g s) (hx : Quiet (onBus x)) :
    Offering m f g ((bridge q).cycle x s) := by
  rcases hg with ⟨ha, hg⟩ | ⟨ha, harb⟩
  · exact offering_cycle hs ha hg hx
  · obtain ⟨hactive, htag⟩ :=
      edge_of_arb (i := s.engineInputs (onBus x)) ha (congrArg Prod.fst harb)
    refine ⟨hs.cycle hx, ?_⟩
    rw [bridge_cycle, Shim.State.edge_engine (onBus_rstn x)]
    exact ⟨hactive, htag.trans (congrArg Prod.snd harb)⟩

theorem Offering.leading (h : Offering m f g s) : Leading g s := Or.inl h.2

/-- The three accesses of the second `fire` let the first request take the lead. -/
theorem fire_leading (hf : ∀ x, (f x).isSome = true ↔ x = g) (hfree : f (r'.tagBits q) = none)
    (hbias : m.bias (r'.addrBits q) = false) (hn : ¬ m.Evicts (r'.addrBits q)) :
    Mmio.Triple (bridge q) X (Approaching m f 4) (fire r') fun _ s =>
      Afloat (m.access (r'.access q)) (f.enter m r') s ∧ Leading g s := by
  have haddr : Mmio.Triple (bridge q) X (Approaching m f 4) (.write addrReqAddr r'.addr)
      fun _ s => Approaching m f 3 s ∧ s.reqAddr = r'.addrBits q := by
    apply Mmio.Triple.write approaching_stable
    · intro s _
      exact bridge_ready_write fun h => absurd h (by decide)
    · intro s hs
      refine ⟨hs.cycle (quiet_write (by decide) (by decide)), ?_⟩
      rw [bridge_cycle]
      rfl
  have hwdata : Mmio.Triple (bridge q) X
      (fun s => Approaching m f 3 s ∧ s.reqAddr = r'.addrBits q)
      (.write addrReqWdata r'.wdata) fun _ s => Approaching m f 2 s ∧ Loaded r' s := by
    apply Mmio.Triple.write
    · rintro s ⟨hs, ha⟩
      refine ⟨approaching_stable s hs, ?_⟩
      rw [bridge_cycle]
      exact ha
    · intro s _
      exact bridge_ready_write fun h => absurd h (by decide)
    · rintro s ⟨hs, ha⟩
      refine ⟨hs.cycle (quiet_write (by decide) (by decide)), ?_⟩
      rw [bridge_cycle]
      exact ⟨ha, fun _ => rfl⟩
  have hfire : Mmio.Triple (bridge q) X (fun s => Approaching m f 2 s ∧ Loaded r' s)
      (.write addrReqFire r'.fireWord) fun _ s =>
        Afloat (m.access (r'.access q)) (f.enter m r') s ∧ Leading g s := by
    apply Mmio.Triple.write
    · rintro s ⟨hs, hl⟩
      refine ⟨approaching_stable s hs, ?_⟩
      rw [bridge_cycle]
      exact ⟨hl.addr, hl.wdata⟩
    · rintro s ⟨hs, _⟩
      exact bridge_ready_write fun _ => hs.1.2
    · rintro s ⟨⟨⟨hcarry, hp⟩, hnear⟩, hl⟩
      rw [bridge_cycle]
      obtain ⟨hnext, hq⟩ := hcarry.edge_fire hp hl
      have hslot : s.engine.respActive = true ∨
          ∃ x, (s.engine.slot x).valid = true ∧ (s.engine.slot x).cnt.toNat + 1 ≤ 2 := by
        rcases hnear with ha | hslot | ⟨hpending, _⟩
        · exact Or.inl ha
        · exact Or.inr hslot
        · rw [hp] at hpending
          cases hpending
      refine ⟨Afloat.queued hnext hq hfree hbias hn rfl rfl, ?_⟩
      exact hnext.leading (near_edge hcarry.offer rfl rfl hslot).1 hf
  apply haddr.bind
  intro _
  apply hwdata.bind
  intro _
  exact hfire

end Firing

section Collecting

variable {X : Prop} {m : Model q.engine} {r r' : Request}

/-- The loop invariant: the responses come in the order of the requests. -/
inductive InOrder (m : Model q.engine) (r r' : Request) : ℕ → Arrivals → Shim.State q → Prop
  | first {n : ℕ} {f : Ledger q} {s : Shim.State q}
      (hf : ∀ x, (f x).isSome = true ↔ x = r.tagBits q ∨ x = r'.tagBits q)
      (hs : Afloat m f s) (hg : Leading (r.tagBits q) s)
      (hn : s.engine.respActive = true ∧ n = 6 ∨ n = 7) : InOrder m r r' n Arrivals.start s
  | second {n k : ℕ} {f : Ledger q} {s : Shim.State q}
      (hf : ∀ x, (f x).isSome = true ↔ x = r'.tagBits q) (hs : Afloat m f s) (hk : Near k s)
      (hn : n = k + 1) : InOrder m r r' n ⟨true, false, 0, -1, 1⟩ s
  | both {s : Shim.State q} (hs : Rest m s) : InOrder m r r' 0 ⟨true, true, 0, 1, 2⟩ s

/-- Both responses came, in the order of the requests, and nothing is left outstanding. -/
def Ordered (m : Model q.engine) (a : Arrivals) (s : Shim.State q) : Prop :=
  a = ⟨true, true, 0, 1, 2⟩ ∧ Rest m s

theorem note_first (h : r.tag ≠ r'.tag) :
    Arrivals.start.note r r' r.tag = ⟨true, false, 0, -1, 1⟩ := by
  simp [Arrivals.note, Arrivals.start, h]

theorem note_second (h : r.tag ≠ r'.tag) :
    Arrivals.note r r' ⟨true, false, 0, -1, 1⟩ r'.tag = ⟨true, true, 0, 1, 2⟩ := by
  simp [Arrivals.note, h.symm]

/-- `STATUS` shows the response that leads, or it is shown from the next cycle on. -/
theorem leading_status {f : Ledger q} {g : q.engine.Tag} {n : ℕ} :
    Mmio.Triple (bridge q) X
      (fun s => Afloat m f s ∧ Leading g s ∧ (s.engine.respActive = true ∧ n = 6 ∨ n = 7))
      (.read addrStatus) fun v s => (statusValid v = false → n = 7) ∧ Offering m f g s := by
  apply Mmio.Triple.read
  · rintro s ⟨hs, hg, hn⟩
    have hnext := offering_of_leading hs hg quiet_idle
    exact ⟨hnext.1.afloat, hnext.leading, hn.imp_left fun h => ⟨hnext.2.1, h.2⟩⟩
  · intro s _
    exact bridge_ready_read _
  · rintro s ⟨hs, hg, hn⟩
    refine ⟨?_, offering_of_leading hs hg (quiet_read _)⟩
    rw [bridge_data, statusValid_iff]
    intro ha
    rcases hn with ⟨hactive, _⟩ | hn
    · rw [ha] at hactive
      cases hactive
    · exact hn

/-- The tag that is shown is read, and its response acknowledged. -/
theorem take_spec {f : Ledger q} {g : q.engine.Tag} {a : Arrivals} :
    Mmio.Triple (bridge q) X (Offering m f g)
      ((Mmio.Prog.read addrRespTag).bind fun tag =>
        (Mmio.Prog.write addrRespAck 1).bind fun _ =>
          .ret (Sum.inl (a.note r r' tag) : Arrivals ⊕ Arrivals))
      fun v s => v = .inl (a.note r r' (tagWord g)) ∧
        Settled m (Function.update f g none) s := by
  apply (offeredTag_spec g).bind
  intro tag
  apply Mmio.Triple.of_pure
  rintro rfl
  apply (drainAck_spec g).bind
  intro _
  apply Mmio.Triple.ret
  intro s hs
  exact ⟨rfl, hs⟩

theorem collectRound_spec (htag : r.tag ≠ r'.tag) (hfit : r.tag.toNat < 2 ^ q.tagW)
    (hfit' : r'.tag.toNat < 2 ^ q.tagW) (n : ℕ) (a : Arrivals) :
    Mmio.Triple (bridge q) X (InOrder m r r' n a) (collectRound r r' a)
      (Mmio.Round (InOrder m r r') (Ordered m) n) := by
  have hne : r'.tagBits q ≠ r.tagBits q := by
    intro heq
    apply htag
    rw [← tagWord_tagBits hfit, ← heq, tagWord_tagBits hfit']
  intro s hs
  cases hs with
  | @first _ f _ hf hs hg hn =>
      apply Mmio.wp_bind
      apply Mmio.wp_mono _ (leading_status s ⟨hs, hg, hn⟩)
      rintro v s' ⟨hv, hoffer⟩
      have hbound : 5 < n := by omega
      split
      case isTrue hvalid =>
        apply Mmio.wp_mono _ (take_spec s' hoffer)
        rintro _ t ⟨rfl, ht⟩
        rw [tagWord_tagBits hfit, note_first htag]
        have hleft : ∀ x, (Function.update f (r.tagBits q) none x).isSome = true ↔
            x = r'.tagBits q := by
          intro x
          by_cases hx : x = r.tagBits q
          · subst hx
            simp [hne.symm]
          · rw [Function.update_of_ne hx, hf]
            simp [hx]
        exact ⟨5, hbound, .second hleft ht.afloat (ht.1.near ((hleft _).mpr rfl)) rfl⟩
      case isFalse hinvalid =>
        obtain rfl := hv (Bool.eq_false_iff.mpr hinvalid)
        exact ⟨6, by omega, .first hf hoffer.1.afloat hoffer.leading (Or.inl ⟨hoffer.2.1, rfl⟩)⟩
  | @second _ k f _ hf hs hk hn =>
      apply Mmio.wp_bind
      apply Mmio.wp_mono _ (status_spec k s ⟨hs, hk⟩)
      intro v s' hv
      split at hv
      case isTrue hvalid =>
        obtain ⟨g, hg, hoffer⟩ := hv
        obtain rfl := (hf g).mp hg
        rw [if_pos hvalid]
        apply Mmio.wp_mono _ (take_spec s' hoffer)
        rintro _ t ⟨rfl, ht⟩
        rw [tagWord_tagBits hfit', note_second htag]
        refine ⟨0, by omega, .both (ht.afloat.rest ?_)⟩
        intro x
        by_cases hx : x = r'.tagBits q
        · rw [hx, Function.update_self]
        · rw [Function.update_of_ne hx, ← Option.not_isSome_iff_eq_none, hf]
          exact hx
      case isFalse hinvalid =>
        obtain ⟨hpos, hsettled, hnear⟩ := hv
        rw [if_neg hinvalid]
        exact ⟨k, by omega, .second hf hsettled.afloat hnear (by omega)⟩
  | both hs => exact ⟨rfl, hs⟩

theorem Ledger.enter_isSome (f : Ledger q) (m : Model q.engine) (r : Request)
    (x : q.engine.Tag) : (f.enter m r x).isSome = true ↔ (f x).isSome = true ∨ x = r.tagBits q := by
  by_cases hx : x = r.tagBits q
  · subst hx
    simp [Ledger.enter]
  · simp [Ledger.enter, hx]

theorem overlap_spec (htag : r.tag ≠ r'.tag) (hfit : r.tag.toNat < 2 ^ q.tagW)
    (hfit' : r'.tag.toNat < 2 ^ q.tagW) (hbias : m.bias (r.addrBits q) = false)
    (hbias' : m.bias (r'.addrBits q) = false) (hn : ¬ m.Evicts (r.addrBits q))
    (hn' : ¬ (m.access (r.access q)).Evicts (r'.addrBits q)) {rounds : ℕ}
    (hrounds : X ∨ 7 < rounds) :
    Mmio.Triple (bridge q) X (Rest m) (overlap r r' rounds) fun v s =>
      Ordered ((m.access (r.access q)).access (r'.access q)) v.2 s := by
  have hne : r'.tagBits q ≠ r.tagBits q := by
    intro heq
    apply htag
    rw [← tagWord_tagBits hfit, ← heq, tagWord_tagBits hfit']
  let f : Ledger q := Ledger.enter (fun _ => none) m r
  have hf : ∀ x, (f x).isSome = true ↔ x = r.tagBits q := by
    intro x
    simp [f, Ledger.enter_isSome]
  have hstatus : Mmio.Triple (bridge q) X (Afloat (m.access (r.access q)) f) (.read addrStatus)
      fun _ => Approaching (m.access (r.access q)) f 4 := by
    have hnear : ∀ s, Afloat (m.access (r.access q)) f s → Near 5 s := by
      intro s hs
      cases hs with
      | @queued _ _ _ _ _ hq _ _ _ _ _ => exact Or.inr (Or.inr ⟨hq.valid, le_rfl⟩)
      | settled h _ => exact (h.near ((hf _).mpr rfl)).mono (Nat.le_succ _)
    apply Mmio.Triple.read
    · intro s hs
      exact (hs.cycle quiet_idle).afloat
    · intro s _
      exact bridge_ready_read _
    · intro s hs
      exact approaching_cycle hs (hnear s hs) (quiet_read _)
  have hloop : Mmio.Triple (bridge q) X
      (InOrder ((m.access (r.access q)).access (r'.access q)) r r' 7 Arrivals.start)
      (.loop (collectRound r r') rounds Arrivals.start)
      (Ordered ((m.access (r.access q)).access (r'.access q))) :=
    Mmio.Triple.loop (collectRound_spec htag hfit hfit') hrounds Arrivals.start
  have hfirst := (fire_afloat (X := X) (f := fun _ => none) rfl hbias hn).conseq
    (fun s (hs : Rest m s) => hs.afloat) fun _ _ h => h
  apply hfirst.bind
  intro _
  apply hstatus.bind
  intro v
  have hfree : f (r'.tagBits q) = none := by
    rw [← Option.not_isSome_iff_eq_none, hf]
    exact hne
  have hbias₁ : (m.access (r.access q)).bias (r'.addrBits q) = false := hbias'
  apply (fire_leading hf hfree hbias₁ hn').bind
  intro _
  have hboth : ∀ x, (f.enter (m.access (r.access q)) r' x).isSome = true ↔
      x = r.tagBits q ∨ x = r'.tagBits q := by
    intro x
    rw [Ledger.enter_isSome, hf]
  apply (hloop.conseq (fun s hs => .first hboth hs.1 hs.2 (Or.inr rfl)) fun _ _ h => h).bind
  intro a
  apply Mmio.Triple.ret
  intro s hs
  exact hs

end Collecting

section Results

variable {x : Undefined q} {bus : ℕ → Bus} {t : ℕ} {r r' : Request}

/-- Requests are answered in the order of their issue. Take any state in which nothing
is pending or outstanding, and two requests with different tags that fit their field, for
Device-Biased addresses, that displace no unwritten data. Fired one right after the other, with any
number of idle cycles before each register access, the first is answered first,
whether or not its response was shown before the second was issued. Both are carried
out in their order, and nothing is left outstanding. -/
theorem issue_order (hq : (Shim.run x bus t).Quiescent) (htag : r.tag ≠ r'.tag)
    (hfit : r.tag.toNat < 2 ^ q.tagW) (hfit' : r'.tag.toNat < 2 ^ q.tagW)
    (hbias : (Shim.run x bus t).engine.bias (r.addrBits q) = false)
    (hbias' : (Shim.run x bus t).engine.bias (r'.addrBits q) = false)
    (hn : ¬ (Model.ofShim (Shim.run x bus t)).Evicts (r.addrBits q))
    (hn' : ¬ ((Model.ofShim (Shim.run x bus t)).access (r.access q)).Evicts (r'.addrBits q))
    (rounds : ℕ) (gaps : ℕ → ℕ) :
    ∃ n c, Mmio.run (bridge q) gaps (overlap r r' rounds) (Shim.run x bus t) n = c ∧
      ((∃ v, c.prog = .ret v ∧ v.2 = ⟨true, true, 0, 1, 2⟩ ∧
        Rest (((Model.ofShim (Shim.run x bus t)).access (r.access q)).access (r'.access q))
          c.device) ∨
      c.prog = .exit ∧ rounds ≤ 7) :=
  outcome hq (overlap_spec htag hfit hfit' hbias hbias' hn hn' (le_or_gt rounds 7)) gaps

end Results

section Demonstration

/-- At power-on the read is answered before the write, without idle cycles as well. -/
theorem issue_order_testPhase2h :
    ∃ n v, (Mmio.run (bridge defaultShim) (fun _ => 0) (testPhase2h 8)
        (Shim.run powerOnZero (fun _ => Bus.idle) 0) n).prog = .ret v ∧
      v.2 = ⟨true, true, 0, 1, 2⟩ := by
  have hclean : ∀ a, ¬ (Model.ofShim (Shim.run powerOnZero (fun _ => Bus.idle) 0)).Evicts a := by
    rintro a ⟨_, hvalid, _⟩
    cases hvalid
  obtain ⟨n, c, hrun, ⟨v, hprog, hv, _⟩ | ⟨_, hrounds⟩⟩ :=
    @issue_order defaultShim powerOnZero (fun _ => Bus.idle) 0 ⟨false, 0x09, 10, 0⟩
      ⟨true, 0x40, 12, 0xCAFEBABE⟩ ⟨rfl, rfl, rfl, fun _ => rfl⟩ (by decide) (by decide)
      (by decide) rfl rfl (hclean _)
      ((Model.evicts_access_of_ne (by decide)).not.mpr (hclean _)) 8 fun _ => 0
  · exact ⟨n, v, by rw [testPhase2h, hrun, hprog], hv⟩
  · omega

end Demonstration

end CxlLite.Hps
