import CxlLite.Hps.Transparency
import CxlLite.Hps.Uart
import CxlLite.Mmio.Beside

/-!
# The bare-metal bring-up program

`host_driver` writes a word, reads it back, and reports both completions over the
UART. It runs on a bus with the shim and the UART side by side, and what it transmits
is known to the last byte.
-/

namespace CxlLite.Hps

open Engine Shim

section Programs

/-- A program over the registers of the shim and of the UART. -/
abbrev BareProg (α : Type) := Mmio.Prog (BitVec 5 ⊕ ℕ) (BitVec 32) α

def onShim {α : Type} (p : Prog α) : BareProg α := p.on Sum.inl

def onUart {α : Type} (p : UartProg α) : BareProg α := p.on Sum.inr

/-- `CXL_FIRE_TAG` masks the tag before it shifts it into its place. -/
def bareRequest (isWrite : Bool) (addr tag wdata : BitVec 32) : Request :=
  ⟨isWrite, addr, tag &&& 0xF, wdata⟩

/-- `main`, for any address, word and tags, up to the endless loop at its end. -/
def bringUp (polls upolls : ℕ) (addr wdata wtag rtag : BitVec 32) : BareProg PUnit := do
  let _ ← onUart (uartPuts upolls (text "\nCXL-Lite Phase 1H hardware bring-up\n"))
  onShim (fire (bareRequest true addr wtag wdata))
  let status ← onShim (pollStatus polls)
  let _ ← onUart (uartPuts upolls (text "write completion: status="))
  let _ ← onUart (uartPutHex32 upolls status)
  let _ ← onUart (uartPuts upolls (text ", tag="))
  let tag ← onShim (.read addrRespTag)
  let _ ← onUart (uartPutHex32 upolls tag)
  let _ ← onUart (uartPuts upolls (text (if statusIsData status then " (UNEXPECTED: is_data=1)\n"
    else " (NDR, as expected)\n")))
  onShim (.write addrRespAck 1)
  onShim (.write addrReqAddr addr)
  onShim (.write addrReqFire (bareRequest false addr rtag 0).fireWord)
  let status ← onShim (pollStatus polls)
  let rdata ← onShim (.read addrRespRdata)
  let _ ← onUart (uartPuts upolls (text "read completion: status="))
  let _ ← onUart (uartPutHex32 upolls status)
  let _ ← onUart (uartPuts upolls (text ", tag="))
  let tag ← onShim (.read addrRespTag)
  let _ ← onUart (uartPutHex32 upolls tag)
  let _ ← onUart (uartPuts upolls (text ", rdata="))
  let _ ← onUart (uartPutHex32 upolls rdata)
  let _ ← onUart (uartPuts upolls (text (if rdata = wdata then " -- PASS\n"
    else " -- FAIL (mismatch)\n")))
  onShim (.write addrRespAck 1)
  let _ ← onUart (uartPuts upolls (text "done.\n"))
  return ⟨⟩

def bareMain (polls upolls : ℕ) : BareProg PUnit := bringUp polls upolls 0x05 0xABCD1234 3 7

end Programs

section Reports

/-- The transmitted report of a write with the given tag word. -/
def writeReport (tag : BitVec 32) : List Byte :=
  wireText (text "write completion: status=") ++ hex32 1 ++ wireText (text ", tag=") ++
    hex32 tag ++ wireText (text " (NDR, as expected)\n")

/-- The transmitted report of a read that expects `wdata`. -/
def readReport (tag rdata wdata : BitVec 32) : List Byte :=
  wireText (text "read completion: status=") ++ hex32 3 ++ wireText (text ", tag=") ++
    hex32 tag ++ wireText (text ", rdata=") ++ hex32 rdata ++
      wireText (text (if rdata = wdata then " -- PASS\n" else " -- FAIL (mismatch)\n"))

/-- Everything that the program transmits. -/
def transcript (wtag rtag rdata wdata : BitVec 32) : List Byte :=
  wireText (text "\nCXL-Lite Phase 1H hardware bring-up\n") ++ writeReport wtag ++
    readReport rtag rdata wdata ++ wireText (text "done.\n")

end Reports

section Steps

variable {q : ShimParams} {S : Type*} {X : Prop} {dev : Mmio.Device S ℕ (BitVec 32)}
  {u : Transmitter dev} {upolls : ℕ} {l : List Byte} {P : Shim.State q → Prop}

/-- The shim satisfies `P`, and the UART has taken the bytes `l`. -/
def Reported (u : Transmitter dev) (P : Shim.State q → Prop) (l : List Byte)
    (t : Shim.State q × S) : Prop := P t.1 ∧ u.Sent l t.2

/-- A routine on the shim transmits nothing. -/
theorem onShim_spec {α : Type} {prog : Prog α} {Q : α → Shim.State q → Prop}
    (h : Mmio.Triple (bridge q) X P prog Q) :
    Mmio.Triple ((bridge q).beside dev) X (Reported u P l) (onShim prog) fun a =>
      Reported u (Q a) l := h.left sent_stable

/-- A routine on the shim that returns a known word transmits nothing. -/
theorem onShim_word {prog : Prog (BitVec 32)} {w : BitVec 32} {Q : Shim.State q → Prop}
    (h : Mmio.Triple (bridge q) X P prog fun v s => v = w ∧ Q s) :
    Mmio.Triple ((bridge q).beside dev) X (Reported u P l) (onShim prog) fun v t =>
      v = w ∧ Reported u Q l t :=
  (onShim_spec h).conseq (fun _ ht => ht) fun _ _ ht => and_assoc.mp ht

/-- A text is transmitted while the shim stays as it is. -/
theorem say_spec (hP : (bridge q).Stable P) (s : List Byte) (hu : X ∨ u.period < upolls) :
    Mmio.Triple ((bridge q).beside dev) X (Reported u P l) (onUart (uartPuts upolls s))
      fun _ => Reported u P (l ++ wireText s) := (uartPuts_spec s hu).right hP

theorem sayHex_spec (hP : (bridge q).Stable P) (v : BitVec 32) (hu : X ∨ u.period < upolls) :
    Mmio.Triple ((bridge q).beside dev) X (Reported u P l) (onUart (uartPutHex32 upolls v))
      fun _ => Reported u P (l ++ hex32 v) := (uartPutHex32_spec v hu).right hP

end Steps

section Program

variable {q : ShimParams} {S : Type*} {X : Prop} {dev : Mmio.Device S ℕ (BitVec 32)}
  {u : Transmitter dev} {m : Model q.engine} {polls upolls : ℕ} {l : List Byte}

/-- The word that `RESP_TAG` shows for a tag of the program. -/
def bareTag (q : ShimParams) (tag : BitVec 32) : BitVec 32 :=
  ((tag &&& 0xF).extractLsb' 0 q.tagW).setWidth 32

theorem bringUp_spec {addr wdata : BitVec 32} (wtag rtag : BitVec 32)
    (hbias : m.bias (addr.extractLsb' 0 q.addrW) = false) (hp : X ∨ 7 < polls)
    (hu : X ∨ u.period < upolls) :
    Mmio.Triple ((bridge q).beside dev) X (Reported u (Rest m) l)
      (bringUp polls upolls addr wdata wtag rtag) fun _ t =>
        t.1.Quiescent ∧ u.sent t.2 = l ++ transcript (bareTag q wtag) (bareTag q rtag)
          ((wdata.extractLsb' 0 q.dataW).setWidth 32) wdata := by
  let w := bareRequest true addr wtag wdata
  let r := bareRequest false addr rtag 0
  let m₁ := m.access (w.access q)
  have hanswer : m₁.answer (addr.extractLsb' 0 q.addrW) = wdata.extractLsb' 0 q.dataW :=
    (Model.serves_of_write (m := m) (r := w.access q) rfl).answer
  apply (say_spec rest_stable _ hu).bind
  intro _
  apply (onShim_spec (fire_spec (r := w) hbias)).bind
  intro _
  apply (onShim_word (pollStatus_spec (enough_polls hp))).bind
  intro status
  apply Mmio.Triple.of_pure
  rintro rfl
  apply (say_spec served_stable _ hu).bind
  intro _
  apply (sayHex_spec served_stable _ hu).bind
  intro _
  apply (say_spec served_stable _ hu).bind
  intro _
  apply (onShim_word respTag_spec).bind
  intro tag
  apply Mmio.Triple.of_pure
  rintro rfl
  apply (sayHex_spec served_stable _ hu).bind
  intro _
  apply (say_spec served_stable _ hu).bind
  intro _
  apply (onShim_spec ack_spec).bind
  intro _
  apply (onShim_spec (reqAddr_loaded (m := m₁) (r := r) rfl)).bind
  intro _
  apply (onShim_spec (reqFire_serving (m := m₁) (r := r) hbias)).bind
  intro _
  apply (onShim_word (pollStatus_spec (enough_polls hp))).bind
  intro status
  apply Mmio.Triple.of_pure
  rintro rfl
  have hrdata : Mmio.Triple (bridge q) X (Served r (m₁.answer (r.addrBits q))
      (m₁.access (r.access q))) (.read addrRespRdata) fun v s =>
        v = (wdata.extractLsb' 0 q.dataW).setWidth 32 ∧
          Served r (m₁.answer (r.addrBits q)) (m₁.access (r.access q)) s := by
    apply respRdata_spec.conseq (fun _ h => h)
    rintro v s ⟨hv, hs⟩
    rw [← hanswer]
    exact ⟨hv rfl, hs⟩
  apply (onShim_word hrdata).bind
  intro rdata
  apply Mmio.Triple.of_pure
  rintro rfl
  apply (say_spec served_stable _ hu).bind
  intro _
  apply (sayHex_spec served_stable _ hu).bind
  intro _
  apply (say_spec served_stable _ hu).bind
  intro _
  apply (onShim_word respTag_spec).bind
  intro tag
  apply Mmio.Triple.of_pure
  rintro rfl
  apply (sayHex_spec served_stable _ hu).bind
  intro _
  apply (say_spec served_stable _ hu).bind
  intro _
  apply (sayHex_spec served_stable _ hu).bind
  intro _
  apply (say_spec served_stable _ hu).bind
  intro _
  apply (onShim_spec ack_spec).bind
  intro _
  apply (say_spec rest_stable _ hu).bind
  intro _
  apply Mmio.Triple.ret
  rintro t ⟨hrest, hsent⟩
  refine ⟨hrest.quiescent, ?_⟩
  have hall : u.sent t.2 = _ := hsent
  rw [hall]
  have hwrite : w.statusWord = 1 := rfl
  have hread : r.statusWord = 3 := rfl
  have hdata : statusIsData 1 = false := rfl
  have hwtag : (w.tagBits q).setWidth 32 = bareTag q wtag := rfl
  have hrtag : (r.tagBits q).setWidth 32 = bareTag q rtag := rfl
  simp only [transcript, writeReport, readReport, List.append_assoc, hwrite, hread, hdata, hwtag,
    hrtag, Bool.false_eq_true, if_false]

end Program

section Results

variable {q : ShimParams} {S : Type*} {dev : Mmio.Device S ℕ (BitVec 32)}
  {x : Shim.Undefined q} {bus : ℕ → Bus} {t : ℕ}

/-- The bring-up program transmits exactly its transcript. On any shim with nothing
pending or outstanding and the address Device-Biased, beside any UART in any state,
however the processor is paced, the UART takes the report of a write and of a read with
the tags as far as they fit, and `PASS` if and only if the word fits into the data field. -/
theorem bring_up_transcript (hq : (Shim.run x bus t).Quiescent) {addr : BitVec 32}
    (hbias : (Shim.run x bus t).engine.bias (addr.extractLsb' 0 q.addrW) = false)
    (u : Transmitter dev) (s : S) (wdata wtag rtag : BitVec 32) (polls upolls : ℕ)
    (gaps : ℕ → ℕ) :
    ∃ n c, Mmio.run ((bridge q).beside dev) gaps (bringUp polls upolls addr wdata wtag rtag)
        (Shim.run x bus t, s) n = c ∧
      ((∃ a, c.prog = .ret a ∧ c.device.1.Quiescent ∧
        u.sent c.device.2 = u.sent s ++ transcript (bareTag q wtag) (bareTag q rtag)
          ((wdata.extractLsb' 0 q.dataW).setWidth 32) wdata) ∨
      c.prog = .exit ∧ (polls ≤ 7 ∨ upolls ≤ u.period)) := by
  have hp : (polls ≤ 7 ∨ upolls ≤ u.period) ∨ 7 < polls :=
    (le_or_gt polls 7).imp_left Or.inl
  have hu : (polls ≤ 7 ∨ upolls ≤ u.period) ∨ u.period < upolls :=
    (le_or_gt upolls u.period).imp_left Or.inr
  have hstart : Reported u (Rest (Model.ofShim (Shim.run x bus t))) (u.sent s)
      (Shim.run x bus t, s) := ⟨rest_of_quiescent hq, rfl⟩
  obtain ⟨n, hend⟩ := (bringUp_spec wtag rtag hbias hp hu).run hstart gaps
  exact ⟨n, _, rfl, hend⟩

end Results

section Demonstration

/-- At power-on the program reports a pass. -/
theorem bring_up_transcript_powerOn :
    ∃ n, Shifter.sent (Mmio.run ((bridge defaultShim).beside Shifter.device) (fun n => n)
        (bareMain 8 11) (Shim.run powerOnZero (fun _ => Bus.idle) 0, ⟨0, [], by decide⟩)
          n).device.2 = transcript 3 7 0xABCD1234 0xABCD1234 := by
  obtain ⟨n, c, hrun, ⟨a, _, _, hsent⟩ | ⟨_, hpolls⟩⟩ :=
    @bring_up_transcript defaultShim Shifter Shifter.device powerOnZero (fun _ => Bus.idle) 0
      ⟨rfl, rfl, rfl, fun _ => rfl⟩ 0x05 rfl Shifter.transmitter ⟨0, [], by decide⟩
      0xABCD1234 3 7 8 11 fun n => n
  · refine ⟨n, ?_⟩
    rw [bareMain, hrun]
    exact hsent
  · have hperiod : Shifter.transmitter.period = 10 := rfl
    omega

end Demonstration

end CxlLite.Hps
