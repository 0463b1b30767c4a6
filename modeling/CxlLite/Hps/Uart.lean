import CxlLite.Mmio.Logic
import Mathlib.Data.List.Basic
import Mathlib.Tactic.IntervalCases

/-!
# The polled UART driver

The bare-metal program reports over the UART of the processor. The UART itself is not
part of the repository: what its driver relies on is a structure, and the driver is
correct for every device with that structure.
-/

namespace CxlLite.Hps

section Driver

/-- A program over the registers of the UART, by word offset. -/
abbrev UartProg (α : Type) := Mmio.Prog ℕ (BitVec 32) α

/-- `UART_THR`. -/
def uartThr : ℕ := 0

/-- `UART_LSR`. -/
def uartLsr : ℕ := 5

/-- `UART_LSR & UART_LSR_THRE`. -/
def uartEmpty (v : BitVec 32) : Bool := v &&& 0x20 != 0

abbrev Byte := BitVec 8

def ascii (s : List Char) : List Byte := s.map fun c => BitVec.ofNat 8 c.toNat

/-- The bytes of a string literal, before its terminating zero. -/
def text (s : String) : List Byte := ascii s.toList

/-- `uart_putc` for a character other than a line feed. -/
def uartPutByte (polls : ℕ) (c : Byte) : UartProg PUnit := do
  let _ ← .poll uartLsr uartEmpty polls
  .write uartThr (c.setWidth 32)

/-- The recursive call is made for a carriage return, and makes none itself. -/
def uartPutc (polls : ℕ) (c : Byte) : UartProg PUnit := do
  if c = 10 then
    uartPutByte polls 13
  uartPutByte polls c

def uartPuts (polls : ℕ) (s : List Byte) : UartProg (List PUnit) :=
  .sequence (s.map (uartPutc polls))

def digits : List Byte :=
  ascii ['0', '1', '2', '3', '4', '5', '6', '7', '8', '9', 'a', 'b', 'c', 'd', 'e', 'f']

/-- `digits[(v >> shift) & 0xF]`. -/
def hexDigit (v : BitVec 32) (shift : ℕ) : Byte := digits.getD (v >>> shift &&& 0xF).toNat 0

/-- The values of `shift` in the loop. -/
def hexShifts : List ℕ := [28, 24, 20, 16, 12, 8, 4, 0]

def uartPutHex32 (polls : ℕ) (v : BitVec 32) : UartProg (List PUnit) := do
  let _ ← uartPuts polls (ascii ['0', 'x'])
  .sequence (hexShifts.map fun shift => uartPutc polls (hexDigit v shift))

end Driver

section Transmitter

variable {S : Type*} {X : Prop}

/-- What the driver relies on: the UART takes a byte when `THR` is empty, and `LSR` says
whether it is. -/
structure Transmitter (dev : Mmio.Device S ℕ (BitVec 32)) where
  /-- The bytes taken so far. -/
  sent : S → List Byte
  /-- The cycles until `THR` is empty. -/
  delay : S → ℕ
  /-- The time that a byte occupies `THR`. -/
  period : ℕ
  delay_le : ∀ s, delay s ≤ period
  ready : ∀ x s, dev.stalls x s = false
  sent_idle : ∀ s, sent (dev.cycle none s) = sent s
  delay_idle : ∀ s, delay (dev.cycle none s) = delay s - 1
  empty_iff : ∀ s, uartEmpty (dev.data (.read uartLsr) s) = true ↔ delay s = 0
  sent_lsr : ∀ s, sent (dev.cycle (some (.read uartLsr)) s) = sent s
  delay_lsr : ∀ s, delay (dev.cycle (some (.read uartLsr)) s) = delay s - 1
  sent_thr : ∀ v s, delay s = 0 →
    sent (dev.cycle (some (.write uartThr v)) s) = sent s ++ [v.setWidth 8]

variable {dev : Mmio.Device S ℕ (BitVec 32)} (u : Transmitter dev)

/-- The UART has taken exactly these bytes. -/
def Transmitter.Sent (l : List Byte) (s : S) : Prop := u.sent s = l

/-- What is transmitted for a character. -/
def wire (c : Byte) : List Byte := if c = 10 then [13, 10] else [c]

/-- What is transmitted for a text. -/
def wireText (s : List Byte) : List Byte := s.flatMap wire

/-- What is transmitted for a word. -/
def hex32 (v : BitVec 32) : List Byte := ascii ['0', 'x'] ++ hexShifts.map (hexDigit v)

variable {u} {polls : ℕ} {l : List Byte}

theorem sent_stable : dev.Stable (u.Sent l) := by
  intro s hs
  exact (u.sent_idle s).trans hs

theorem uartPutByte_spec (c : Byte) (hp : X ∨ u.period < polls) :
    Mmio.Triple dev X (u.Sent l) (uartPutByte polls c) fun _ => u.Sent (l ++ [c]) := by
  have hpoll : Mmio.Triple dev X (fun s => u.Sent l s ∧ u.delay s ≤ u.period)
      (.poll uartLsr uartEmpty polls) fun _ s => u.Sent l s ∧ u.delay s = 0 := by
    apply Mmio.Triple.poll (I := fun n s => u.Sent l s ∧ u.delay s ≤ n) _ _ _ _ hp
    · rintro n s ⟨hs, hn⟩
      refine ⟨sent_stable s hs, ?_⟩
      rw [u.delay_idle]
      omega
    · intro n s _
      exact u.ready _ s
    · rintro n s ⟨hs, hn⟩ hfail
      have hpos : u.delay s ≠ 0 := by
        intro hzero
        rw [(u.empty_iff s).mpr hzero] at hfail
        cases hfail
      refine ⟨by omega, (u.sent_lsr s).trans hs, ?_⟩
      rw [u.delay_lsr]
      omega
    · rintro n s ⟨hs, _⟩ hpass
      refine ⟨(u.sent_lsr s).trans hs, ?_⟩
      rw [u.delay_lsr, (u.empty_iff s).mp hpass]
  have hwrite : Mmio.Triple dev X (fun s => u.Sent l s ∧ u.delay s = 0)
      (.write uartThr (c.setWidth 32)) fun _ => u.Sent (l ++ [c]) := by
    apply Mmio.Triple.write
    · rintro s ⟨hs, hzero⟩
      refine ⟨sent_stable s hs, ?_⟩
      rw [u.delay_idle, hzero]
    · intro s _
      exact u.ready _ s
    · rintro s ⟨hs, hzero⟩
      have hbyte : (c.setWidth 32).setWidth 8 = c := by simp
      exact (u.sent_thr _ s hzero).trans (by rw [hs, hbyte])
  apply (hpoll.conseq (fun s hs => ⟨hs, u.delay_le s⟩) fun _ _ h => h).bind
  intro _
  exact hwrite

theorem uartPutc_spec (c : Byte) (hp : X ∨ u.period < polls) :
    Mmio.Triple dev X (u.Sent l) (uartPutc polls c) fun _ => u.Sent (l ++ wire c) := by
  rw [uartPutc, wire]
  split
  case isTrue heq =>
    subst heq
    apply (uartPutByte_spec 13 hp).bind
    intro _
    apply (uartPutByte_spec 10 hp).conseq (fun s hs => hs)
    intro _ s hs
    rwa [List.append_assoc] at hs
  case isFalse hne => exact uartPutByte_spec c hp

/-- A list of characters is transmitted in its order. -/
theorem putAll_spec {ι : Type*} (f : ι → Byte) (is : List ι) (hp : X ∨ u.period < polls) :
    Mmio.Triple dev X (u.Sent l) (.sequence (is.map fun i => uartPutc polls (f i)))
      fun _ => u.Sent (l ++ is.flatMap fun i => wire (f i)) := by
  refine (Mmio.Triple.sequence (I := fun rest _ s =>
    ∃ pre, pre ++ rest = is ∧ u.Sent (l ++ pre.flatMap fun i => wire (f i)) s) ?_ is []).conseq
      ?_ ?_
  · rintro i rest as s ⟨pre, hpre, hs⟩
    apply Mmio.wp_mono _ (uartPutc_spec (f i) hp s hs)
    intro _ s' hs'
    refine ⟨pre ++ [i], by simp [← hpre], ?_⟩
    rw [List.append_assoc] at hs'
    simpa using hs'
  · intro s hs
    exact ⟨[], rfl, by simpa using hs⟩
  · rintro as s ⟨pre, hpre, hs⟩
    rw [List.append_nil] at hpre
    rwa [hpre] at hs

theorem uartPuts_spec (s : List Byte) (hp : X ∨ u.period < polls) :
    Mmio.Triple dev X (u.Sent l) (uartPuts polls s) fun _ => u.Sent (l ++ wireText s) :=
  putAll_spec id s hp

end Transmitter

section Words

/-- A digit is not a line feed, and its place in `digits` is its value. -/
theorem digit_place {n : ℕ} (hn : n < 16) :
    digits.getD n 0 ≠ 10 ∧ digits.idxOf (digits.getD n 0) = n := by
  interval_cases n <;> decide

/-- The word that a transmitted text stands for. -/
def readHex32 : List Byte → Option (BitVec 32)
  | 48 :: 120 :: ds =>
      some (BitVec.ofNat 32 (ds.foldl (fun n d => 16 * n + digits.idxOf d) 0))
  | _ => none

theorem nibble_toNat (v : BitVec 32) (shift : ℕ) :
    (v >>> shift &&& 0xF).toNat = v.toNat / 2 ^ shift % 16 := by
  rw [BitVec.toNat_and, BitVec.toNat_ushiftRight, Nat.shiftRight_eq_div_pow]
  exact Nat.and_two_pow_sub_one_eq_mod _ 4

theorem nibble_lt (v : BitVec 32) (shift : ℕ) : (v >>> shift &&& 0xF).toNat < 16 := by
  rw [nibble_toNat]
  exact Nat.mod_lt _ (by decide)

theorem idxOf_hexDigit (v : BitVec 32) (shift : ℕ) :
    digits.idxOf (hexDigit v shift) = v.toNat / 2 ^ shift % 16 := by
  rw [hexDigit, (digit_place (nibble_lt v shift)).2, nibble_toNat]

theorem wire_hexDigit (v : BitVec 32) (shift : ℕ) : wire (hexDigit v shift) = [hexDigit v shift] :=
  if_neg (digit_place (nibble_lt v shift)).1

/-- The digits read so far are a quotient, and the next digit is its last remainder. -/
theorem quotient_digit (n shift : ℕ) :
    16 * (n / 2 ^ (shift + 4)) + n / 2 ^ shift % 16 = n / 2 ^ shift := by
  rw [Nat.pow_add, ← Nat.div_div_eq_div_mul]
  exact Nat.div_add_mod _ 16

/-- A word can be read back from its text. -/
theorem readHex32_hex32 (v : BitVec 32) : readHex32 (hex32 v) = some v := by
  have hv := v.isLt
  have hread : readHex32 (hex32 v) = some (BitVec.ofNat 32 ((hexShifts.map (hexDigit v)).foldl
      (fun n d => 16 * n + digits.idxOf d) 0)) := rfl
  rw [hread]
  apply congrArg some
  apply BitVec.eq_of_toNat_eq
  rw [BitVec.toNat_ofNat]
  have hfirst : v.toNat / 2 ^ 28 % 16 = v.toNat / 2 ^ 28 := Nat.mod_eq_of_lt (by omega)
  simp only [hexShifts, List.map_cons, List.map_nil, List.foldl_cons, List.foldl_nil,
    idxOf_hexDigit, Nat.mul_zero, Nat.zero_add]
  rw [hfirst, quotient_digit _ 24, quotient_digit _ 20, quotient_digit _ 16, quotient_digit _ 12,
    quotient_digit _ 8, quotient_digit _ 4, quotient_digit _ 0, Nat.pow_zero, Nat.div_one]
  exact Nat.mod_eq_of_lt hv

end Words

section Reports

variable {S : Type*} {X : Prop} {dev : Mmio.Device S ℕ (BitVec 32)} {u : Transmitter dev}
  {polls : ℕ} {l : List Byte}

theorem uartPutHex32_spec (v : BitVec 32) (hp : X ∨ u.period < polls) :
    Mmio.Triple dev X (u.Sent l) (uartPutHex32 polls v) fun _ => u.Sent (l ++ hex32 v) := by
  have hdigits : (hexShifts.flatMap fun shift => wire (hexDigit v shift)) =
      hexShifts.map (hexDigit v) := by
    simp only [wire_hexDigit]
    rfl
  apply (uartPuts_spec (ascii ['0', 'x']) hp).bind
  intro _
  apply (putAll_spec (hexDigit v) hexShifts hp).conseq (fun s hs => hs)
  intro _ s hs
  rw [hdigits, List.append_assoc] at hs
  exact hs

/-- What `uart_put_hex32` transmits is decoded to the word that it was given, on every
UART and in every state of it, however the processor is paced. -/
theorem hex_round_trip (u : Transmitter dev) (v : BitVec 32) (polls : ℕ) (gaps : ℕ → ℕ) (s : S) :
    ∃ n c, Mmio.run dev gaps (uartPutHex32 polls v) s n = c ∧
      ((∃ as bytes, c.prog = .ret as ∧ u.sent c.device = u.sent s ++ bytes ∧
        readHex32 bytes = some v) ∨
      c.prog = .exit ∧ polls ≤ u.period) := by
  have hspec : Mmio.Triple dev (polls ≤ u.period) (u.Sent (u.sent s)) (uartPutHex32 polls v)
      fun _ => u.Sent (u.sent s ++ hex32 v) := uartPutHex32_spec v (le_or_gt polls u.period)
  obtain ⟨n, ⟨as, hprog, hsent⟩ | hexit⟩ := hspec.run rfl gaps
  · exact ⟨n, _, rfl, Or.inl ⟨as, hex32 v, hprog, hsent, readHex32_hex32 v⟩⟩
  · exact ⟨n, _, rfl, Or.inr hexit⟩

end Reports

section Demonstration

/-- The state of a UART that shifts a byte out in ten cycles. -/
structure Shifter where
  delay : ℕ
  sent : List Byte
  delay_le : delay ≤ 10

namespace Shifter

def tick (s : Shifter) : Shifter := { s with
  delay := s.delay - 1
  delay_le := (Nat.sub_le s.delay 1).trans s.delay_le }

def device : Mmio.Device Shifter ℕ (BitVec 32) where
  cycle x s :=
    match x with
    | some (.write 0 v) => if s.delay = 0 then ⟨10, s.sent ++ [v.setWidth 8], le_rfl⟩ else s.tick
    | _ => s.tick
  stalls _ _ := false
  data _ s := if s.delay = 0 then 0x60 else 0

/-- The bytes are taken in the order in which they are written. -/
def transmitter : Transmitter device where
  sent := Shifter.sent
  delay := Shifter.delay
  period := 10
  delay_le := Shifter.delay_le
  ready _ _ := rfl
  sent_idle _ := rfl
  delay_idle _ := rfl
  empty_iff s := by
    by_cases h : s.delay = 0 <;> simp [device, uartEmpty, h]
  sent_lsr _ := rfl
  delay_lsr _ := rfl
  sent_thr v s h := by
    simp [device, uartThr, h]

end Shifter

/-- The shifter is still busy when the word is passed to it. -/
theorem hex_round_trip_shifter :
    ∃ n bytes, Shifter.sent (Mmio.run Shifter.device (fun n => n) (uartPutHex32 11 0xABCD1234)
      ⟨4, [], by decide⟩ n).device = bytes ∧ readHex32 bytes = some 0xABCD1234 := by
  obtain ⟨n, c, hrun, ⟨_, bytes, _, hsent, hread⟩ | ⟨_, hpolls⟩⟩ :=
    hex_round_trip Shifter.transmitter 0xABCD1234 11 (fun n => n) ⟨4, [], by decide⟩
  · refine ⟨n, bytes, ?_, hread⟩
    rw [hrun]
    exact hsent
  · have hperiod : Shifter.transmitter.period = 10 := rfl
    omega

end Demonstration

end CxlLite.Hps
