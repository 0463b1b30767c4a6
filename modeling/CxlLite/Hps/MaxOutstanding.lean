import CxlLite.Hps.Outstanding
import Mathlib.Data.List.Perm.Subperm

/-!
# The stress test for outstanding requests

`test_max_outstanding` fires its requests without draining any of them, and then
counts the responses against the tags that it fired.
-/

namespace CxlLite.Hps

open Engine Shim

variable {q : ShimParams}

section Programs

/-- The first loop of `test_max_outstanding`. -/
def fireAll (rs : List Request) : Prog (List PUnit) := .sequence (rs.map fire)

/-- The tags in `seen` and the number of `errors`. -/
structure Tally where
  seen : List (BitVec 32)
  errors : ℕ
  deriving DecidableEq, Repr

/-- The checks on a response: a phantom, a duplicate, or one more tag seen. -/
def Tally.count (fired : List (BitVec 32)) (c : Tally) (tag : BitVec 32) : Tally :=
  if tag ∉ fired then { c with errors := c.errors + 1 }
  else if tag ∈ c.seen then { c with errors := c.errors + 1 }
  else { c with seen := c.seen ++ [tag] }

/-- One round of the second loop, while there are tags to be seen. -/
def drainRound (fired : List (BitVec 32)) (c : Tally) : Prog (Tally ⊕ Tally) :=
  if c.seen.length < fired.length then
    (Mmio.Prog.read addrStatus).bind fun s =>
      if statusValid s then
        (Mmio.Prog.read addrRespTag).bind fun tag =>
          (Mmio.Prog.write addrRespAck 1).bind fun _ => .ret (.inl (c.count fired tag))
      else .ret (.inl c)
  else .ret (.inr c)

/-- The second loop of `test_max_outstanding`. The timeout leaves time for `rounds` rounds. -/
def drain (fired : List (BitVec 32)) (rounds : ℕ) : Prog Tally :=
  .loop (drainRound fired) rounds ⟨[], 0⟩

def maxOutstanding (rs : List Request) (rounds : ℕ) : Prog Tally := do
  let _ ← fireAll rs
  drain (rs.map Request.tag) rounds

end Programs

section Firing

variable {X : Prop} {m : Model q.engine} {f : Ledger q} {r : Request}

theorem quiet_of_no_write {b : Bus} (hrst : b.rstn = true) (h : b.avsWrite = false) : Quiet b :=
  ⟨passive_of_no_write hrst h, Bus.writes_of_no_write h _⟩

theorem quiet_idle : Quiet (onBus none) := quiet_of_no_write rfl rfl

theorem quiet_read (reg : BitVec 5) : Quiet (onBus (some (.read reg))) := quiet_of_no_write rfl rfl

theorem quiet_write {reg : BitVec 5} {v : BitVec 32}
    (h : ∀ a ∈ [addrReqFire, addrBiasSet, addrCacheBypass], reg ≠ a) (hack : reg ≠ addrRespAck) :
    Quiet (onBus (some (.write reg v))) :=
  ⟨passive_write h, writes_onBus hack⟩

/-- The engine owes the responses of the ledger, and nothing is queued. -/
def Settled (m : Model q.engine) (f : Ledger q) (s : Shim.State q) : Prop :=
  Carrying m f s ∧ s.pendingValid = false

theorem Afloat.cycle {x : Option (Mmio.Access (BitVec 5) (BitVec 32))} {s : Shim.State q}
    (h : Afloat m f s) (hx : Quiet (onBus x)) : Settled m f ((bridge q).cycle x s) := by
  rw [bridge_cycle]
  exact h.edge hx

theorem Settled.afloat {s : Shim.State q} (h : Settled m f s) : Afloat m f s := .settled h.1 h.2

/-- `fire` enters a request into the ledger, if its tag is free and it displaces
no unwritten data. -/
theorem fire_afloat (hfree : f (r.tagBits q) = none) (hbias : m.bias (r.addrBits q) = false)
    (hn : ¬ m.Evicts (r.addrBits q)) :
    Mmio.Triple (bridge q) X (Afloat m f) (fire r) fun _ =>
      Afloat (m.access (r.access q)) (f.enter m r) := by
  have haddr : Mmio.Triple (bridge q) X (Afloat m f) (.write addrReqAddr r.addr)
      fun _ s => Settled m f s ∧ s.reqAddr = r.addrBits q := by
    apply Mmio.Triple.write
    · intro s hs
      exact (hs.cycle quiet_idle).afloat
    · intro s _
      exact bridge_ready_write fun h => absurd h (by decide)
    · intro s hs
      refine ⟨hs.cycle (quiet_write (by decide) (by decide)), ?_⟩
      rw [bridge_cycle]
      rfl
  have hwdata : Mmio.Triple (bridge q) X
      (fun s : Shim.State q => Settled m f s ∧ s.reqAddr = r.addrBits q)
      (.write addrReqWdata r.wdata) fun _ s => Settled m f s ∧ Loaded r s := by
    apply Mmio.Triple.write
    · rintro s ⟨hs, ha⟩
      refine ⟨hs.afloat.cycle quiet_idle, ?_⟩
      rw [bridge_cycle]
      exact ha
    · rintro s _
      exact bridge_ready_write fun h => absurd h (by decide)
    · rintro s ⟨hs, ha⟩
      refine ⟨hs.afloat.cycle (quiet_write (by decide) (by decide)), ?_⟩
      rw [bridge_cycle]
      exact ⟨ha, fun _ => rfl⟩
  have hfire : Mmio.Triple (bridge q) X (fun s : Shim.State q => Settled m f s ∧ Loaded r s)
      (.write addrReqFire r.fireWord) fun _ =>
        Afloat (m.access (r.access q)) (f.enter m r) := by
    apply Mmio.Triple.write
    · rintro s ⟨hs, hl⟩
      refine ⟨hs.afloat.cycle quiet_idle, ?_⟩
      rw [bridge_cycle]
      exact ⟨hl.addr, hl.wdata⟩
    · rintro s ⟨hs, _⟩
      exact bridge_ready_write fun _ => hs.2
    · rintro s ⟨hs, hl⟩
      rw [bridge_cycle]
      obtain ⟨hcarry, hq⟩ := hs.1.edge_fire hs.2 hl
      exact Afloat.queued hcarry hq hfree hbias hn rfl rfl
  apply haddr.bind
  intro _
  apply hwdata.bind
  intro _
  exact hfire

/-- The sequential model after a list of requests. -/
def Model.accessAll (m : Model q.engine) (rs : List Request) : Model q.engine :=
  rs.foldl (fun m r => m.access (r.access q)) m

/-- The ledger after a list of requests. -/
def Ledger.enterAll (f : Ledger q) (m : Model q.engine) : List Request → Ledger q
  | [] => f
  | r :: rs => (f.enter m r).enterAll (m.access (r.access q)) rs

/-- Each request of the list finds its tag free and displaces no unwritten data. -/
def Fireable (m : Model q.engine) (f : Ledger q) : List Request → Prop
  | [] => True
  | r :: rs => f (r.tagBits q) = none ∧ m.bias (r.addrBits q) = false ∧
      ¬ m.Evicts (r.addrBits q) ∧ Fireable (m.access (r.access q)) (f.enter m r) rs

theorem fireAll_spec {rs : List Request} (h : Fireable m f rs) :
    Mmio.Triple (bridge q) X (Afloat m f) (fireAll rs) fun _ =>
      Afloat (m.accessAll rs) (f.enterAll m rs) := by
  refine (Mmio.Triple.sequence (I := fun l _ s => ∃ (m' : Model q.engine) (f' : Ledger q),
    Afloat m' f' s ∧ Fireable m' f' l ∧ m'.accessAll l = m.accessAll rs ∧
      f'.enterAll m' l = f.enterAll m rs) ?_ rs []).conseq ?_ ?_
  · rintro r l as s ⟨m', f', hs, ⟨hfree, hbias, hn, hl⟩, hm, hf⟩
    apply Mmio.wp_mono _ (fire_afloat hfree hbias hn s hs)
    intro _ s' hs'
    exact ⟨_, _, hs', hl, hm, hf⟩
  · intro s hs
    exact ⟨m, f, hs, h, rfl, rfl⟩
  · rintro _ s ⟨m', f', hs, _, hm, hf⟩
    rw [← hm, ← hf]
    exact hs

theorem enterAll_isSome (rs : List Request) (m : Model q.engine) (f : Ledger q)
    (g : q.engine.Tag) :
    (f.enterAll m rs g).isSome = true ↔ (f g).isSome = true ∨ ∃ r ∈ rs, r.tagBits q = g := by
  induction rs generalizing m f with
  | nil => simp [Ledger.enterAll]
  | cons r rs ih =>
      rw [Ledger.enterAll, ih, Ledger.enter]
      by_cases hg : r.tagBits q = g
      · subst hg
        simp
      · simp [hg, Function.update_of_ne (Ne.symm hg)]

end Firing

section Draining

variable {X : Prop} {m : Model q.engine} {f : Ledger q} {fired : List (BitVec 32)}

/-- The word that `RESP_TAG` shows for a tag. -/
def tagWord (g : q.engine.Tag) : BitVec 32 := g.setWidth 32

theorem tagW_le (q : ShimParams) : q.tagW ≤ 32 := by
  have h := q.tagW_add_le
  omega

theorem tagWord_inj {g g' : q.engine.Tag} (h : tagWord g = tagWord g') : g = g' := by
  have hback := congrArg (BitVec.setWidth q.tagW) h
  rw [tagWord, tagWord, BitVec.setWidth_setWidth_of_le _ (tagW_le q),
    BitVec.setWidth_setWidth_of_le _ (tagW_le q)] at hback
  simpa using hback

/-- A tag that fits is shown as it was fired. -/
theorem tagWord_tagBits {r : Request} (h : r.tag.toNat < 2 ^ q.tagW) :
    tagWord (r.tagBits q) = r.tag := by
  apply BitVec.eq_of_toNat_eq
  rw [tagWord, Request.tagBits, BitVec.toNat_setWidth, BitVec.extractLsb'_toNat,
    Nat.shiftRight_zero, Nat.mod_eq_of_lt h, Nat.mod_eq_of_lt r.tag.isLt]

/-- The tags that are fired and not seen are those of the ledger, and nothing was wrong so far. -/
structure Matches (fired : List (BitVec 32)) (f : Ledger q) (c : Tally) : Prop where
  clean : c.errors = 0
  subset : c.seen ⊆ fired
  nodup : c.seen.Nodup
  open_iff : ∀ g, (f g).isSome = true ↔ tagWord g ∈ fired ∧ tagWord g ∉ c.seen
  tags : ∀ w ∈ fired, ∃ g : q.engine.Tag, tagWord g = w

/-- The response of an open tag is counted as one more tag seen. -/
theorem Matches.count {c : Tally} (h : Matches fired f c) {g : q.engine.Tag}
    (hg : (f g).isSome = true) :
    Matches fired (Function.update f g none) (c.count fired (tagWord g)) ∧
      (c.count fired (tagWord g)).seen.length = c.seen.length + 1 := by
  obtain ⟨hin, hnew⟩ := (h.open_iff g).mp hg
  have hcount : c.count fired (tagWord g) = { c with seen := c.seen ++ [tagWord g] } := by
    rw [Tally.count, if_neg (not_not.mpr hin), if_neg hnew]
  rw [hcount]
  refine ⟨⟨h.clean, ?_, ?_, ?_, h.tags⟩, by simp⟩
  · intro w hw
    rcases List.mem_append.mp hw with hold | hlast
    · exact h.subset hold
    · rw [List.mem_singleton.mp hlast]
      exact hin
  · apply List.Nodup.append h.nodup (List.nodup_singleton _)
    intro w hw hlast
    rw [List.mem_singleton.mp hlast] at hw
    exact hnew hw
  · intro g'
    by_cases hgg : g' = g
    · subst hgg
      simp
    · have hword : tagWord g' ≠ tagWord g := fun heq => hgg (tagWord_inj heq)
      rw [Function.update_of_ne hgg, h.open_iff]
      simp [hword]

/-- A tag is open as long as not all tags are seen. -/
theorem Matches.exists_open {c : Tally} (h : Matches fired f c) (hfired : fired.Nodup)
    (hlt : c.seen.length < fired.length) : ∃ g, (f g).isSome = true := by
  have hnot : ¬ fired ⊆ c.seen := by
    intro hsub
    have hle := (List.subperm_of_subset hfired hsub).length_le
    omega
  obtain ⟨w, hw, hnew⟩ : ∃ w ∈ fired, w ∉ c.seen := by
    by_contra hall
    apply hnot
    intro w hw
    by_contra hnew
    exact hall ⟨w, hw, hnew⟩
  obtain ⟨g, rfl⟩ := h.tags w hw
  exact ⟨g, (h.open_iff g).mpr ⟨hw, hnew⟩⟩

/-- Once as many tags are seen as were fired, they are the same, and none is open. -/
theorem Matches.complete {c : Tally} (h : Matches fired f c) (hle : fired.length ≤ c.seen.length) :
    c.seen.Perm fired ∧ ∀ g, f g = none := by
  have hperm : c.seen.Perm fired := (List.subperm_of_subset h.nodup h.subset).perm_of_length_le hle
  refine ⟨hperm, ?_⟩
  intro g
  rw [← Option.not_isSome_iff_eq_none, h.open_iff]
  rintro ⟨hin, hnew⟩
  exact hnew (hperm.mem_iff.mpr hin)

/-- The response of tag `g` is shown. -/
def Offering (m : Model q.engine) (f : Ledger q) (g : q.engine.Tag) (s : Shim.State q) : Prop :=
  Settled m f s ∧ s.engine.respActive = true ∧ s.engine.respTag = g

theorem offering_cycle {x : Option (Mmio.Access (BitVec 5) (BitVec 32))} {g : q.engine.Tag}
    {s : Shim.State q} (hs : Afloat m f s) (ha : s.engine.respActive = true)
    (hg : s.engine.respTag = g) (hx : Quiet (onBus x)) : Offering m f g ((bridge q).cycle x s) := by
  obtain ⟨hactive, htag, _⟩ := offer_kept hs.offer ha hx.ack (i := s.engineInputs (onBus x))
  refine ⟨hs.cycle hx, ?_⟩
  rw [bridge_cycle, Shim.State.edge_engine (onBus_rstn x)]
  exact ⟨hactive, htag.trans hg⟩

theorem Offering.cycle {x : Option (Mmio.Access (BitVec 5) (BitVec 32))} {g : q.engine.Tag}
    {s : Shim.State q} (h : Offering m f g s) (hx : Quiet (onBus x)) :
    Offering m f g ((bridge q).cycle x s) := offering_cycle h.1.afloat h.2.1 h.2.2 hx

/-- `STATUS` shows the response of an open tag, or the response has come nearer. -/
theorem status_spec (k : ℕ) :
    Mmio.Triple (bridge q) X (fun s => Afloat m f s ∧ Near k s) (.read addrStatus) fun v s =>
      if statusValid v then ∃ g, (f g).isSome = true ∧ Offering m f g s
      else 0 < k ∧ Settled m f s ∧ Near (k - 1) s := by
  apply Mmio.Triple.read
  · rintro s ⟨hs, hk⟩
    refine ⟨(hs.cycle quiet_idle).afloat, ?_⟩
    rw [bridge_cycle]
    exact (hk.edge hs quiet_idle).1.mono (Nat.sub_le k 1)
  · intro s _
    exact bridge_ready_read _
  · rintro s ⟨hs, hk⟩
    rw [bridge_data, statusValid_iff]
    cases ha : s.engine.respActive with
    | true =>
        exact ⟨_, hs.entry_of_active ha, offering_cycle hs ha rfl (quiet_read _)⟩
    | false =>
        obtain ⟨hnext, hpos⟩ := hk.edge hs (quiet_read addrStatus)
        refine ⟨hpos ha, hs.cycle (quiet_read _), ?_⟩
        rw [bridge_cycle]
        exact hnext

theorem offeredTag_spec (g : q.engine.Tag) :
    Mmio.Triple (bridge q) X (Offering m f g) (.read addrRespTag) fun v s =>
      v = tagWord g ∧ Offering m f g s := by
  apply Mmio.Triple.read
  · intro s hs
    exact hs.cycle quiet_idle
  · intro s _
    exact bridge_ready_read _
  · intro s hs
    refine ⟨?_, hs.cycle (quiet_read _)⟩
    rw [← hs.2.2]
    rfl

theorem drainAck_spec (g : q.engine.Tag) :
    Mmio.Triple (bridge q) X (Offering m f g) (.write addrRespAck 1) fun _ =>
      Settled m (Function.update f g none) := by
  apply Mmio.Triple.write
  · intro s hs
    exact hs.cycle quiet_idle
  · intro s _
    exact bridge_ready_write fun h => absurd h (by decide)
  · intro s hs
    rw [bridge_cycle, ← hs.2.2]
    exact hs.1.1.edge_ack (passive_write (by decide)) rfl hs.2.1 hs.1.2

/-- The loop invariant. Each open tag takes five rounds at most. -/
def Draining (m : Model q.engine) (fired : List (BitVec 32)) (n : ℕ) (c : Tally)
    (s : Shim.State q) : Prop :=
  ∃ f, Afloat m f s ∧ Matches fired f c ∧ (c.seen.length < fired.length →
    ∃ k, Near k s ∧ 5 * (fired.length - c.seen.length) + k ≤ n)

/-- Every fired tag was seen, none twice, and nothing is left outstanding. -/
def Drained (m : Model q.engine) (fired : List (BitVec 32)) (c : Tally) (s : Shim.State q) :
    Prop :=
  c.errors = 0 ∧ c.seen.Perm fired ∧ Rest m s

theorem drainRound_spec (hfired : fired.Nodup) (n : ℕ) (c : Tally) :
    Mmio.Triple (bridge q) X (Draining m fired n c) (drainRound fired c)
      (Mmio.Round (Draining m fired) (Drained m fired) n) := by
  rintro s ⟨f, hs, hmatch, hnear⟩
  rw [drainRound]
  by_cases hlt : c.seen.length < fired.length
  · obtain ⟨k, hk, hle⟩ := hnear hlt
    rw [if_pos hlt]
    apply Mmio.wp_bind
    apply Mmio.wp_mono _ (status_spec k s ⟨hs, hk⟩)
    intro v s' hv
    split at hv
    case isTrue hvalid =>
      obtain ⟨g, hg, hoffer⟩ := hv
      rw [if_pos hvalid]
      apply Mmio.wp_bind
      apply Mmio.wp_mono _ (offeredTag_spec g s' hoffer)
      rintro w s'' ⟨rfl, hoffer'⟩
      apply Mmio.wp_bind
      apply Mmio.wp_mono _ (drainAck_spec g s'' hoffer')
      intro _ t ht
      -- One more tag is seen, and the next response is four cycles away at most.
      obtain ⟨hnext, hlen⟩ := hmatch.count hg
      refine ⟨5 * (fired.length - (c.seen.length + 1)) + 4, by omega, _, ht.afloat, hnext, ?_⟩
      intro hmore
      obtain ⟨g', hg'⟩ := hnext.exists_open hfired hmore
      exact ⟨4, ht.1.near hg', by rw [hlen]⟩
    case isFalse hinvalid =>
      obtain ⟨hpos, hsettled, hk'⟩ := hv
      rw [if_neg hinvalid]
      refine ⟨n - 1, by omega, f, hsettled.afloat, hmatch, ?_⟩
      intro _
      exact ⟨k - 1, hk', by omega⟩
  · obtain ⟨hperm, hnone⟩ := hmatch.complete (Nat.le_of_not_lt hlt)
    rw [if_neg hlt]
    exact ⟨hmatch.clean, hperm, hs.rest hnone⟩

end Draining

section Results

variable {X : Prop} {m : Model q.engine} {rs : List Request}

/-- Requests for different lines, none of which displaces unwritten data at the
start, displace none when they are fired one after the other. -/
theorem fireable_of_lines {f : Ledger q}
    (htags : (rs.map fun r => r.tagBits q).Nodup) (hfree : ∀ r ∈ rs, f (r.tagBits q) = none)
    (hbias : ∀ r ∈ rs, m.bias (r.addrBits q) = false)
    (hlines : (rs.map fun r => idxField (r.addrBits q)).Nodup)
    (hn : ∀ r ∈ rs, ¬ m.Evicts (r.addrBits q)) : Fireable m f rs := by
  induction rs generalizing m f with
  | nil => trivial
  | cons r rs ih =>
      obtain ⟨htag, htags⟩ := List.nodup_cons.mp htags
      obtain ⟨hline, hlines⟩ := List.nodup_cons.mp hlines
      have hr := List.mem_cons_self (a := r) (l := rs)
      refine ⟨hfree r hr, hbias r hr, hn r hr, ih htags ?_ ?_ hlines ?_⟩
      · intro r' hr'
        rw [Ledger.enter, Function.update_of_ne]
        · exact hfree r' (List.mem_cons_of_mem _ hr')
        · intro heq
          exact htag (List.mem_map.mpr ⟨r', hr', heq⟩)
      · intro r' hr'
        exact hbias r' (List.mem_cons_of_mem _ hr')
      · intro r' hr'
        have hne : idxField (r'.addrBits q) ≠ idxField (r.addrBits q) := by
          intro heq
          exact hline (List.mem_map.mpr ⟨r', hr', heq⟩)
        rw [Model.evicts_access_of_ne hne]
        exact hn r' (List.mem_cons_of_mem _ hr')

/-- Tags that fit and differ differ in the register as well. -/
theorem nodup_tagBits (htags : (rs.map Request.tag).Nodup)
    (hfit : ∀ r ∈ rs, r.tag.toNat < 2 ^ q.tagW) : (rs.map fun r => r.tagBits q).Nodup := by
  apply List.Nodup.of_map tagWord
  have hwords : (rs.map fun r => r.tagBits q).map tagWord = rs.map Request.tag := by
    rw [List.map_map]
    apply List.map_congr_left
    intro r hr
    exact tagWord_tagBits (hfit r hr)
  rwa [hwords]

theorem matches_enterAll (hfit : ∀ r ∈ rs, r.tag.toNat < 2 ^ q.tagW) :
    Matches (rs.map Request.tag) (Ledger.enterAll (fun _ => none) m rs) ⟨[], 0⟩ := by
  refine ⟨rfl, List.nil_subset _, List.nodup_nil, ?_, ?_⟩
  · intro g
    rw [enterAll_isSome]
    constructor
    · rintro (hnone | ⟨r, hr, rfl⟩)
      · cases hnone
      · rw [tagWord_tagBits (hfit r hr)]
        exact ⟨List.mem_map_of_mem hr, List.not_mem_nil⟩
    · rintro ⟨hin, _⟩
      obtain ⟨r, hr, htag⟩ := List.mem_map.mp hin
      rw [← tagWord_tagBits (hfit r hr)] at htag
      exact Or.inr ⟨r, hr, tagWord_inj htag⟩
  · intro w hw
    obtain ⟨r, hr, rfl⟩ := List.mem_map.mp hw
    exact ⟨_, tagWord_tagBits (hfit r hr)⟩

theorem maxOutstanding_spec (htags : (rs.map Request.tag).Nodup)
    (hfit : ∀ r ∈ rs, r.tag.toNat < 2 ^ q.tagW) (hfire : Fireable m (fun _ => none) rs)
    {rounds : ℕ} (hrounds : X ∨ 5 * rs.length + 5 < rounds) :
    Mmio.Triple (bridge q) X (Rest m) (maxOutstanding rs rounds)
      (Drained (m.accessAll rs) (rs.map Request.tag)) := by
  have hloop : Mmio.Triple (bridge q) X
      (Draining (m.accessAll rs) (rs.map Request.tag) (5 * rs.length + 5) ⟨[], 0⟩)
      (drain (rs.map Request.tag) rounds) (Drained (m.accessAll rs) (rs.map Request.tag)) :=
    Mmio.Triple.loop (drainRound_spec htags) hrounds ⟨[], 0⟩
  have hall := (fireAll_spec (X := X) hfire).conseq (fun s (hs : Rest m s) => hs.afloat)
    fun _ _ h => h
  apply hall.bind
  intro _
  apply hloop.conseq _ fun _ _ h => h
  intro s hs
  refine ⟨_, hs, matches_enterAll hfit, ?_⟩
  intro hpos
  rw [List.length_map] at hpos ⊢
  -- The last request may still be queued.
  refine ⟨5, ?_, by simp⟩
  cases hs with
  | @queued _ _ _ _ _ hq _ _ _ _ _ => exact Or.inr (Or.inr ⟨hq.valid, le_rfl⟩)
  | settled h _ =>
      obtain ⟨g, hg⟩ := (matches_enterAll (m := m) hfit).exists_open htags (by simpa using hpos)
      exact (h.near hg).mono (Nat.le_succ _)

/-- The stress test never fails. Take any state in which nothing is pending or
outstanding, and any requests with distinct tags that fit their field, for Device-Biased
addresses on distinct lines, none of which displaces unwritten data. Fired one after the
other without draining, with any number of idle cycles before each register access, they
are all answered: every response carries a fired tag, no tag comes twice and none
is missing, and the shim is left at rest. It exits only if the timeout leaves no
time for more than five rounds for each request and five more. -/
theorem max_outstanding {x : Shim.Undefined q} {bus : ℕ → Bus} {t : ℕ}
    (hq : (Shim.run x bus t).Quiescent) (htags : (rs.map Request.tag).Nodup)
    (hfit : ∀ r ∈ rs, r.tag.toNat < 2 ^ q.tagW)
    (hbias : ∀ r ∈ rs, (Shim.run x bus t).engine.bias (r.addrBits q) = false)
    (hlines : (rs.map fun r => idxField (r.addrBits q)).Nodup)
    (hn : ∀ r ∈ rs, ¬ (Model.ofShim (Shim.run x bus t)).Evicts (r.addrBits q))
    (rounds : ℕ) (gaps : ℕ → ℕ) :
    ∃ n c, Mmio.run (bridge q) gaps (maxOutstanding rs rounds) (Shim.run x bus t) n = c ∧
      ((∃ tally, c.prog = .ret tally ∧ tally.errors = 0 ∧
        tally.seen.Perm (rs.map Request.tag) ∧
          Rest ((Model.ofShim (Shim.run x bus t)).accessAll rs) c.device) ∨
      c.prog = .exit ∧ rounds ≤ 5 * rs.length + 5) := by
  have hfire : Fireable (Model.ofShim (Shim.run x bus t)) (fun _ => none) rs :=
    fireable_of_lines (nodup_tagBits htags hfit) (fun _ _ => rfl) hbias hlines hn
  have hspec := maxOutstanding_spec (X := rounds ≤ 5 * rs.length + 5) htags hfit hfire
    (le_or_gt rounds _)
  exact outcome hq hspec gaps

end Results

section Demonstration

/-- Two writes and a read on three lines. -/
def threeRequests : List Request := [⟨true, 96, 0, 7⟩, ⟨false, 97, 5, 0⟩, ⟨true, 98, 2, 9⟩]

theorem max_outstanding_threeRequests :
    ∃ n c, Mmio.run (bridge defaultShim) (fun n => n) (maxOutstanding threeRequests 21)
        (Shim.run powerOnZero (fun _ => Bus.idle) 0) n = c ∧
      ((∃ tally, c.prog = .ret tally ∧ tally.errors = 0 ∧
        tally.seen.Perm (threeRequests.map Request.tag) ∧
          Rest ((Model.ofShim (Shim.run powerOnZero (fun _ => Bus.idle) 0)).accessAll
            threeRequests) c.device) ∨
      c.prog = .exit ∧ 21 ≤ 5 * threeRequests.length + 5) := by
  apply max_outstanding (q := defaultShim) ⟨rfl, rfl, rfl, fun _ => rfl⟩
  · decide
  · decide
  · intro _ _
    rfl
  · decide
  · rintro r _ ⟨_, hvalid, _⟩
    cases hvalid

end Demonstration

end CxlLite.Hps
